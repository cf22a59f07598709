import SphereVFS.Isolation
import SphereVFS.Namespace

/-!
# SphereVFS.DirEffect

What a successful `vfs_delete` or `vfs_rename` changes for the readers at its own epoch, and that it
changes nothing for the others.

Both find the child by name and then take the first slot of the directory with the child's id. The
effect is the expected one exactly when that slot shows the name at the epoch and no other slot does.
-/

namespace SphereVFS

variable {st st' : State} {epoch R : Int} {dir child slot : VPtr} {name : Name} {childId : Nat}

/-! ## Lookup through lists -/

/-- A link of the index as `dirchain_find_child` follows it. -/
def checkLink (st : State) (readEpoch : Int) (name : Name) (link : VPtr) : Option (VPtr × Nat) :=
  if link = 0 then none else checkSlotForName st readEpoch name link

theorem findChild_congr {d d' : DirNode} {e e' : Int} (hd : st.nodes dir = some (.dir d))
    (hd' : st'.nodes dir = some (.dir d'))
    (hlinks : (d'.index (leafOf name)).findSome? (checkLink st' (resolve st'.mapperTable e') name) =
      (d.index (leafOf name)).findSome? (checkLink st (resolve st.mapperTable e) name))
    (hslots : d'.slotList.findSome? (checkSlotForName st' (resolve st'.mapperTable e') name) =
      d.slotList.findSome? (checkSlotForName st (resolve st.mapperTable e) name)) :
    dirchainFindChild st' dir name e' = dirchainFindChild st dir name e := by
  change (d'.index (leafOf name)).findSome? (fun link => if link = 0 then none else
    checkSlotForName st' (resolve st'.mapperTable e') name link) = (d.index (leafOf name)).findSome?
      (fun link => if link = 0 then none else
        checkSlotForName st (resolve st.mapperTable e) name link) at hlinks
  simp only [dirchainFindChild, hd, hd', hlinks, hslots]

theorem findSome_congr {α β : Type} {f g : α → Option β} {l : List α} (h : ∀ x ∈ l, f x = g x) :
    l.findSome? f = l.findSome? g := by
  induction l with
  | nil => rfl
  | cons x l ih =>
    rw [List.findSome?_cons, List.findSome?_cons, h x List.mem_cons_self,
      ih fun y hy => h y (List.mem_cons_of_mem x hy)]

theorem findSome_insert {α β : Type} {f : α → Option β} {x : α} (hx : f x = none) (pre post : List α) :
    (pre ++ x :: post).findSome? f = (pre ++ post).findSome? f := by
  rw [List.findSome?_append, List.findSome?_append, List.findSome?_cons, hx]

theorem findSome_indexRemove {β : Type} {f : VPtr → Option β} (h0 : f 0 = none) (hslot : f slot = none)
    (ix : DirIndex) (name : Name) (leaf : Nat) :
    (indexRemove ix name slot leaf).findSome? f = (ix leaf).findSome? f := by
  have hmap : ∀ links : List VPtr,
      (links.map fun l => if l = slot then 0 else l).findSome? f = links.findSome? f := by
    intro links
    induction links with
    | nil => rfl
    | cons l links ih =>
      rw [List.map_cons, List.findSome?_cons, List.findSome?_cons, ih]
      by_cases hl : l = slot
      · rw [if_pos hl, h0, hl, hslot]
      · rw [if_neg hl]
  simp only [indexRemove, Function.update_apply]
  split
  · rename_i hleaf
    rw [hmap, hleaf]
  · rfl

theorem findSome_indexInsert {β : Type} {f : VPtr → Option β} (hslot : f slot = none) (ix : DirIndex)
    (name : Name) (leaf : Nat) :
    (indexInsert ix name slot leaf).findSome? f = (ix leaf).findSome? f := by
  simp only [indexInsert, Function.update_apply]
  split
  · rename_i hleaf
    rw [List.findSome?_cons, hslot, hleaf]
  · rfl

theorem vfsOpen_of_findChild {e e' : Int}
    (h : dirchainFindChild st' dir name e' = dirchainFindChild st dir name e) :
    vfsOpen st' dir name e' = vfsOpen st dir name e := by
  rw [vfsOpen, vfsOpen, h]

theorem vfsOpen_ok {e : Int} (h : vfsOpen st dir name e = .ok child) :
    ∃ childId, dirchainFindChild st dir name e = .ok (child, childId) := by
  rw [vfsOpen] at h
  cases hfind : dirchainFindChild st dir name e with
  | error err => simp [hfind, Except.map] at h
  | ok r =>
    simp only [hfind, Except.map, Except.ok.injEq] at h
    exact ⟨r.2, by rw [← h]⟩

theorem not_lists_of_notFound (hwf : DirWf st) (hne : name ≠ []) {e : Int}
    (h : vfsOpen st dir name e = .error .notFound) (v c : VPtr) :
    ¬ Lists st (resolve st.mapperTable e) dir v name c := by
  intro hl
  obtain ⟨d, -, hd, -⟩ := id hl
  obtain ⟨c', v', hopen, -⟩ | ⟨-, hnone⟩ := vfsOpen_cases hwf hd hne e
  · rw [h] at hopen
    cases hopen
  · exact hnone v c hl

/-- The slot an operation takes for the child is the one slot of the directory that shows the name. -/
def OnlySlot (st : State) (dir : VPtr) (name : Name) (epoch : Int) (child : VPtr) : Prop :=
  ∃ childId slot, dirchainFindChild st dir name epoch = .ok (child, childId) ∧
    SlotFound st dir name epoch child childId slot ∧
    ∀ slot' child', Lists st epoch dir slot' name child' → slot' = slot

theorem notFound_iff_only (hwf : Wf st) (he : Writable st epoch) (hkeep : DirEdits.Keeps st st' epoch)
    {d : DirNode} (hd : st'.nodes dir = some (.dir d)) (hne : name ≠ [])
    (hlists : ∀ v c, Lists st' epoch dir v name c ↔ v ≠ slot ∧ Lists st epoch dir v name c) :
    vfsOpen st' dir name epoch = .error .notFound ↔
      ∀ slot' c, Lists st epoch dir slot' name c → slot' = slot := by
  have hres : resolve st'.mapperTable epoch = epoch := by
    rw [hkeep.same.table, hwf.epoch.resolve_writable he]
  constructor
  · intro hopen v c hl
    by_contra hvs
    refine not_lists_of_notFound hkeep.dirWf hne hopen v c ?_
    rw [hres]
    exact (hlists v c).2 ⟨hvs, hl⟩
  · intro honly
    obtain ⟨c, v, -, hv⟩ | ⟨hopen, -⟩ := vfsOpen_cases hkeep.dirWf hd hne epoch
    · rw [hres, hlists] at hv
      exact absurd (honly v c hv.2) hv.1
    · exact hopen

section Found

variable {d : DirNode} (hd : st.nodes dir = some (.dir d))
  (hfind : dirchainFindChild st dir name epoch = .ok (child, childId))
  (hslot : dirchainFindSlotnode st d childId = some slot)
include hd hfind hslot

theorem slotFound_of_others (hwf : Wf st) (he : Writable st epoch)
    (hothers : ∀ slot' child', Lists st epoch dir slot' name child' → slot' = slot) :
    SlotFound st dir name epoch child childId slot := by
  obtain ⟨d₀, v, dc, hd₀, hmem, hdc, hname, hchild, -⟩ := findChild_ok hwf.dir hfind
  rw [hwf.epoch.resolve_writable he] at hdc
  have hl : Lists st epoch dir v name child := ⟨d₀, dc, hd₀, hmem, hdc, hname, hchild⟩
  obtain rfl := hothers v child hl
  exact ⟨d, hd, hslot, hl⟩

theorem slotFound_eq {childId' : Nat} {slot' : VPtr}
    (hfind' : dirchainFindChild st dir name epoch = .ok (child, childId'))
    (hfound : SlotFound st dir name epoch child childId' slot') :
    slot' = slot ∧ Lists st epoch dir slot' name child := by
  obtain ⟨d', hd', hslot', hl⟩ := hfound
  obtain ⟨-, rfl⟩ : child = child ∧ childId = childId' := by simpa [hfind] using hfind'
  obtain rfl : d = d' := by simpa [hd] using hd'
  exact ⟨by simpa [hslot] using hslot'.symm, hl⟩

end Found

/-! ## Nodes that differ in an index only -/

def Reindexed (st st' : State) : Prop :=
  ∀ v, st'.nodes v = st.nodes v ∨
    ∃ d ix, st.nodes v = some (.dir d) ∧ st'.nodes v = some (.dir { d with index := ix })

theorem Reindexed.isDir (h : Reindexed st st') (v : VPtr) : isDir st' v = isDir st v := by
  obtain hv | ⟨d, ix, hd, hd'⟩ := h v
  · simp only [SphereVFS.isDir, hv]
  · simp only [SphereVFS.isDir, hd, hd']

theorem Reindexed.listSlot (h : Reindexed st st') {v : VPtr}
    (hv : visibleEntry st' R v = visibleEntry st R v) : listSlot st' R v = listSlot st R v := by
  simp only [SphereVFS.listSlot, hv, h.isDir]

theorem Reindexed.readdir (h : Reindexed st st') (htable : st'.mapperTable = st.mapperTable) {e : Int}
    (hentry : ∀ d, st.nodes dir = some (.dir d) → ∀ v ∈ d.slotList,
      visibleEntry st' (resolve st.mapperTable e) v = visibleEntry st (resolve st.mapperTable e) v) :
    vfsReaddir st' dir e = vfsReaddir st dir e := by
  have hlist : ∀ d, st.nodes dir = some (.dir d) →
      d.slotList.filterMap (SphereVFS.listSlot st' (resolve st.mapperTable e)) =
        d.slotList.filterMap (SphereVFS.listSlot st (resolve st.mapperTable e)) :=
    fun d hd => List.filterMap_congr fun v hv => h.listSlot (hentry d hd v hv)
  rw [vfsReaddir, vfsReaddir, htable]
  obtain hv | ⟨d, ix, hd, hd'⟩ := h dir
  · rw [hv]
    split
    · rename_i d hd
      rw [hlist d hd]
    · rfl
  · simp only [hd, hd']
    rw [← hlist d hd]
    rfl

theorem setIndex_reindexed {d : DirNode} (hd : st.nodes dir = some (.dir d)) (ix : DirIndex) :
    Reindexed st (setIndex st dir d ix) := by
  intro v
  by_cases hv : v = dir
  · subst hv
    exact .inr ⟨d, ix, hd, Function.update_self ..⟩
  · exact .inl (Function.update_of_ne hv ..)

/-! ## Delete -/

/-- The effect of deleting the link `name` to `child`. -/
structure DeleteEffect (st st' : State) (dir : VPtr) (name : Name) (child : VPtr) (epoch : Int) :
    Prop where
  gone : vfsOpen st' dir name epoch = .error .notFound
  listing : ∃ pre entry post, vfsReaddir st dir epoch = .ok (pre ++ entry :: post) ∧
    entry.name = name ∧ entry.vp = child ∧ vfsReaddir st' dir epoch = .ok (pre ++ post)
  others : ∀ dir', dir' ≠ dir → vfsReaddir st' dir' epoch = vfsReaddir st dir' epoch
  epochs : ∀ R, Writable st R → R ≠ epoch → ∀ dir', vfsReaddir st' dir' R = vfsReaddir st dir' R

/-- The volume after a delete that takes `slot` for the child. -/
def deleted (st : State) (dir : VPtr) (d : DirNode) (slot : VPtr) (s : SlotNode) (childId : Nat)
    (child : VPtr) (name : Name) (epoch : Int) (entries : List BinEntry) : State :=
  { setIndex (prependEntry st slot s childId child none epoch) dir d (indexInsert d.index name slot) with
    bin := entries }

theorem vfsDelete_ok (hfind : dirchainFindChild st dir name epoch = .ok (child, childId))
    (h : (vfsDelete st dir name epoch).1 = .ok ()) :
    ∃ d slot s entries, st.nodes dir = some (.dir d) ∧ dirchainFindSlotnode st d childId = some slot ∧
      st.slots slot = some s ∧ (vfsDelete st dir name epoch).2 =
        deleted st dir d slot s childId child name epoch entries := by
  obtain ⟨e, hs⟩ | ⟨d, childId', child', vp, st', entries, -, hfind', hd, hput, hs⟩ :=
    vfsDelete_call st dir name epoch
  · rw [hs] at h
    cases h
  · cases hfind.symm.trans hfind'
    obtain ⟨slot, s, hslot, hs', rfl⟩ := putTombstone_eq_some hput
    exact ⟨d, slot, s, entries, hd, hslot, hs', congrArg Prod.snd hs⟩

section Delete

variable {d : DirNode} {s : SlotNode} {entries : List BinEntry} (hwf : Wf st) (he : Writable st epoch)
  (hdel : st' = deleted st dir d slot s childId child name epoch entries)
include hdel

theorem deleted_node : st'.nodes dir = some (.dir { d with index := indexInsert d.index name slot }) := by
  rw [hdel]
  exact Function.update_self ..

theorem deleted_reindexed (hd : st.nodes dir = some (.dir d)) : Reindexed st st' := by
  rw [hdel]
  exact setIndex_reindexed hd _

include hwf he

theorem deleted_entry (v : VPtr) : visibleEntry st' epoch v =
    if v = slot then some ⟨st.nextVp, epoch, childId, child, none⟩ else visibleEntry st epoch v := by
  rw [hdel]
  exact visibleEntry_prependEntry hwf.epoch he slot s childId child none v

variable (hd : st.nodes dir = some (.dir d)) (hmem : slot ∈ d.slotList)
include hd

theorem deleted_lists {dir' v c : VPtr} {n : Name} :
    Lists st' epoch dir' v n c ↔ v ≠ slot ∧ Lists st epoch dir' v n c := by
  -- the slots of a directory are what they were
  have hdirs : (∃ d', st'.nodes dir' = some (.dir d') ∧ v ∈ d'.slotList) ↔
      ∃ d', st.nodes dir' = some (.dir d') ∧ v ∈ d'.slotList := by
    obtain h | ⟨d₀, ix, h, h'⟩ := deleted_reindexed hdel hd dir'
    · rw [h]
    · simp [h, h', DirNode.slotList]
  constructor
  · rintro ⟨d', dc, hd', hv, hdc, hname, hchild⟩
    rw [deleted_entry hwf he hdel] at hdc
    split at hdc
    · cases hdc
      cases hname
    · rename_i hne
      obtain ⟨d₀, hd₀, hv₀⟩ := hdirs.1 ⟨d', hd', hv⟩
      exact ⟨hne, d₀, dc, hd₀, hv₀, hdc, hname, hchild⟩
  · rintro ⟨hne, d₀, dc, hd₀, hv₀, hdc, hname, hchild⟩
    obtain ⟨d', hd', hv⟩ := hdirs.2 ⟨d₀, hd₀, hv₀⟩
    refine ⟨d', dc, hd', hv, ?_, hname, hchild⟩
    rw [deleted_entry hwf he hdel, if_neg hne]
    exact hdc

include hmem

theorem deleted_keeps (hs : st.slots slot = some s) (hchild : (st.nodes child).isSome) :
    DirEdits.Keeps st st' epoch := by
  have ht : Tombstoned st epoch st' :=
    ⟨dir, d, slot, s, childId, child, name, entries, hd, hmem, hs, hchild, hdel⟩
  exact (ht.edits hwf.dir).keeps hwf.epoch he hwf.dir

theorem deleted_listing (hl : Lists st epoch dir slot name child) :
    ∃ pre entry post, vfsReaddir st dir epoch = .ok (pre ++ entry :: post) ∧ entry.name = name ∧
      entry.vp = child ∧ vfsReaddir st' dir epoch = .ok (pre ++ post) := by
  have hres := hwf.epoch.resolve_writable he
  obtain ⟨d₀, dc, -, -, hdc, hname, hchild⟩ := hl
  obtain ⟨pre, post, hsplit⟩ := List.append_of_mem hmem
  have hnodup := hwf.dir.slot_nodup dir d hd
  rw [hsplit, List.nodup_middle, List.nodup_cons, List.mem_append, not_or] at hnodup
  have hentry : listSlot st epoch slot = some ⟨child, dc.childId, isDir st child, name⟩ := by
    simp [listSlot, hdc, hname, hchild]
  have hnone : listSlot st' epoch slot = none := by
    rw [listSlot, deleted_entry hwf he hdel, if_pos rfl]
    rfl
  have hsame : ∀ l : List VPtr, slot ∉ l →
      l.filterMap (listSlot st' epoch) = l.filterMap (listSlot st epoch) := by
    refine fun l hl => List.filterMap_congr fun v hv => (deleted_reindexed hdel hd).listSlot ?_
    rw [deleted_entry hwf he hdel, if_neg]
    rintro rfl
    exact hl hv
  refine ⟨pre.filterMap (listSlot st epoch), ⟨child, dc.childId, isDir st child, name⟩,
    post.filterMap (listSlot st epoch), ?_, rfl, rfl, ?_⟩
  · rw [vfsReaddir, hd, hres]
    dsimp only
    rw [hsplit, List.filterMap_append, List.filterMap_cons_some hentry]
  · have htable : st'.mapperTable = st.mapperTable := by rw [hdel]; rfl
    rw [vfsReaddir, deleted_node hdel, htable, hres]
    dsimp only
    change Except.ok (d.slotList.filterMap _) = _
    rw [hsplit, List.filterMap_append, List.filterMap_cons_none hnone, hsame pre hnodup.1.1,
      hsame post hnodup.1.2]

theorem deleted_open_iff (hs : st.slots slot = some s) (hne : name ≠ [])
    (hchild : (st.nodes child).isSome) :
    vfsOpen st' dir name epoch = .error .notFound ↔
      ∀ slot' c, Lists st epoch dir slot' name c → slot' = slot :=
  notFound_iff_only hwf he (deleted_keeps hwf he hdel hd hmem hs hchild) (deleted_node hdel) hne
    fun _ _ => deleted_lists hwf he hdel hd

theorem deleted_effect (hs : st.slots slot = some s) (hne : name ≠ [])
    (hl : Lists st epoch dir slot name child)
    (honly : ∀ slot' child', Lists st epoch dir slot' name child' → slot' = slot) :
    DeleteEffect st st' dir name child epoch := by
  have hkeep := deleted_keeps hwf he hdel hd hmem hs (lists_child_isSome hwf.dir hl)
  have hre := deleted_reindexed hdel hd
  have hres := hwf.epoch.resolve_writable he
  constructor
  · exact (deleted_open_iff hwf he hdel hd hmem hs hne (lists_child_isSome hwf.dir hl)).2 honly
  · exact deleted_listing hwf he hdel hd hmem hl
  · intro dir' hne'
    refine hre.readdir hkeep.same.table fun d' hd' v hv => ?_
    rw [hres, deleted_entry hwf he hdel, if_neg]
    rintro rfl
    exact hne' (hwf.dir.slot_dir dir' d' dir d v hd' hd hv hmem)
  · intro R hR hne' dir'
    refine hre.readdir hkeep.same.table fun _ _ v _ => ?_
    rw [hwf.epoch.resolve_writable hR]
    exact hkeep.entries R (writable_lt hR) hne' v

end Delete

/-- **Delete effect.** In every volume reached by valid operations, a successful `vfs_delete` removes
exactly the entry it was called for, and leaves the other listings alone, if and only if the first
slot of the directory with the child's id is the one slot that shows the name. -/
theorem delete_effect_iff {pageSize segmentSize : Nat} (hp : 0 < pageSize) (hs : 0 < segmentSize)
    (ops : List Op) (hrun : Run.AllSteps step ValidOp (bootstrap pageSize segmentSize) ops)
    {dir child : VPtr} {name : Name} {epoch : Int}
    (he : Writable (run (bootstrap pageSize segmentSize) ops) epoch)
    (hopen : vfsOpen (run (bootstrap pageSize segmentSize) ops) dir name epoch = .ok child)
    (hok : (vfsDelete (run (bootstrap pageSize segmentSize) ops) dir name epoch).1 = .ok ()) :
    let st := run (bootstrap pageSize segmentSize) ops
    DeleteEffect st (vfsDelete st dir name epoch).2 dir name child epoch ↔
      OnlySlot st dir name epoch child := by
  have hwf := reachable_wf hp hs hrun
  revert hwf he hopen hok
  generalize run (bootstrap pageSize segmentSize) ops = st
  intro he hopen hok hwf
  obtain ⟨childId, hfind⟩ := vfsOpen_ok hopen
  obtain ⟨d, slot, s, entries, hd, hslot, hs, heq⟩ := vfsDelete_ok hfind hok
  have hmem := findSlotnode_mem hslot
  have hne : name ≠ [] := by
    rintro rfl
    simp [dirchainFindChild] at hfind
  constructor
  · intro heff
    have honly := (deleted_open_iff hwf he heq hd hmem hs hne (findChild_isSome hwf.dir hfind)).1 heff.gone
    exact ⟨childId, slot, hfind, slotFound_of_others hd hfind hslot hwf he honly, honly⟩
  · rintro ⟨childId', slot', hfind', hfound, honly⟩
    obtain ⟨rfl, hl⟩ := slotFound_eq hd hfind hslot hfind' hfound
    exact deleted_effect hwf he heq hd hmem hs hne hl honly

/-- `p` holds of every live entry of every directory. -/
def allLive (st : State) (R : Int) (p : DirNode → VPtr → DirContent → Name → Bool) : Bool :=
  (List.range st.nextVp).all fun dir =>
    match st.nodes dir with
    | some (.dir d) => d.slotList.all fun v =>
      match visibleEntry st R v with
      | some dc =>
        match dc.name with
        | some n => p d v dc n
        | none => true
      | none => true
    | _ => true

theorem allLive_lists (hwf : DirWf st) {p : DirNode → VPtr → DirContent → Name → Bool}
    (h : allLive st R p = true) {d : DirNode} (hd : st.nodes dir = some (.dir d)) {v : VPtr}
    (hv : v ∈ d.slotList) {dc : DirContent} (hdc : visibleEntry st R v = some dc)
    (hname : dc.name = some name) : p d v dc name = true := by
  have hlt : dir < st.nextVp := by
    by_contra hge
    simp [hwf.node_fresh dir (Nat.not_lt.1 hge)] at hd
  have hdir := List.all_eq_true.1 h dir (List.mem_range.2 hlt)
  simp only [hd, List.all_eq_true] at hdir
  simpa only [hdc, hname] using hdir v hv

def entryAlone (st : State) (R : Int) (d : DirNode) (v : VPtr) (dc : DirContent) (name : Name) : Bool :=
  dirchainFindSlotnode st d dc.childId == some v &&
    d.slotList.all fun w => w == v || (checkSlotForName st R name w).isNone

theorem entryAlone_iff {d : DirNode} {v : VPtr} {dc : DirContent} :
    entryAlone st R d v dc name = true ↔ dirchainFindSlotnode st d dc.childId = some v ∧
      ∀ w ∈ d.slotList, w = v ∨ checkSlotForName st R name w = none := by
  simp [entryAlone]

theorem onlySlot_of_alone (hwf : Wf st) (he : Writable st epoch)
    (h : allLive st epoch (entryAlone st epoch) = true) (hopen : vfsOpen st dir name epoch = .ok child) :
    OnlySlot st dir name epoch child := by
  obtain ⟨childId, hfind⟩ := vfsOpen_ok hopen
  obtain ⟨d, v, dc, hd, hv, hdc, hname, hchild, rfl⟩ := findChild_ok hwf.dir hfind
  rw [hwf.epoch.resolve_writable he] at hdc
  obtain ⟨hslot, honly⟩ := entryAlone_iff.1 (allLive_lists hwf.dir h hd hv hdc hname)
  refine ⟨dc.childId, v, hfind, ⟨d, hd, hslot, d, dc, hd, hv, hdc, hname, hchild⟩, ?_⟩
  rintro w c ⟨d', dc', hd', hw, hdc', hname', -⟩
  obtain rfl : d = d' := by simpa [hd] using hd'
  exact (honly w hw).resolve_right fun hnone => checkSlotForName_eq_none.1 hnone dc' hdc' hname'

theorem oneChild_of_alone (hwf : DirWf st) (h : allLive st R (entryAlone st R) = true) (n : Name)
    (v v' c c' : VPtr) (hl : Lists st R dir v n c) (hl' : Lists st R dir v' n c') : c = c' := by
  obtain ⟨d, dc, hd, hv, hdc, hname, rfl⟩ := hl
  obtain ⟨d', dc', hd', hv', hdc', hname', rfl⟩ := hl'
  obtain rfl : d = d' := by simpa [hd] using hd'
  obtain ⟨-, honly⟩ := entryAlone_iff.1 (allLive_lists hwf h hd hv hdc hname)
  obtain rfl : v' = v := (honly v' hv').resolve_right fun hnone =>
    checkSlotForName_eq_none.1 hnone dc' hdc' hname'
  rw [hdc] at hdc'
  cases hdc'
  rfl

theorem movedFiles_valid : Run.AllSteps step ValidOp (bootstrap 8192 1024) movedFiles := by decide +kernel

theorem movedFiles_alone : let st := run (bootstrap 8192 1024) movedFiles
    allLive st 2 (entryAlone st 2) = true ∧ allLive st 1 (entryAlone st 1) = true := by decide +kernel

/-- The renamed file, deleted at the head. -/
theorem delete_effect_moved_files :
    let st := run (bootstrap 8192 1024) movedFiles
    DeleteEffect st (vfsDelete st 1 [99] 2).2 1 [99] 2 2 :=
  have hwf := reachable_wf (by decide) (by decide) movedFiles_valid
  (delete_effect_iff (by decide) (by decide) movedFiles movedFiles_valid (.inl rfl) (by decide +kernel)
    (by decide +kernel)).2 (onlySlot_of_alone hwf (.inl rfl) movedFiles_alone.1 (by decide +kernel))

/-- A file that was moved to another directory and back at the snapshot `1` has a newer slot, which
shows it there only. -/
def movedAndBack : List Op :=
  [.create 1 [102] 0, .mkdir 1 [98] 0, .snapshot, .rename 1 [102] 5 [102] 1, .rename 5 [102] 1 [102] 1]

theorem movedAndBack_valid : Run.AllSteps step ValidOp (bootstrap 8192 1024) movedAndBack := by
  refine ⟨.inl rfl, .inl rfl, ?_, .inr ?_, .inr ?_, trivial⟩
  · show (0 : Int) + 2 < 2 ^ 31
    decide
  · show (1 : Int) % 2 = 1 ∧ (0 : Int) < 1 ∧ (1 : Int) < 2
    decide
  · show (1 : Int) % 2 = 1 ∧ (0 : Int) < 1 ∧ (1 : Int) < 2
    decide

/-- The delete at the head puts its tombstone on the newer slot, and the file is still there. -/
theorem delete_leaves_older_slot :
    let st := run (bootstrap 8192 1024) movedAndBack
    Run.AllSteps step ValidOp (bootstrap 8192 1024) movedAndBack ∧ Writable st 2 ∧
      vfsOpen st 1 [102] 2 = .ok 2 ∧ (vfsDelete st 1 [102] 2).1 = .ok () ∧
      vfsOpen (vfsDelete st 1 [102] 2).2 1 [102] 2 = .ok 2 := by
  refine ⟨movedAndBack_valid, .inl rfl, ?_, ?_, ?_⟩
  · decide +kernel
  · decide +kernel
  · decide +kernel

/-! ## Rename -/

/-- The effect of moving the link `src` to `child` in one directory to the name `dst` in another. -/
structure RenameEffect (st st' : State) (srcParent : VPtr) (src : Name) (dstParent : VPtr) (dst : Name)
    (child : VPtr) (epoch : Int) : Prop where
  target : vfsOpen st' dstParent dst epoch = .ok child
  source : vfsOpen st' srcParent src epoch = .error .notFound
  names : ∀ dir name, (dir, name) ≠ (srcParent, src) → (dir, name) ≠ (dstParent, dst) →
    vfsOpen st' dir name epoch = vfsOpen st dir name epoch
  epochs : ∀ R, Writable st R → R ≠ epoch → SameReads st R st' R

def relinked (d : DirNode) (slot : VPtr) (src dst : Name) : DirIndex :=
  indexInsert (indexRemove d.index src slot) dst slot

/-- The slot shows `child` under the name. -/
def Shows (st : State) (R : Int) (name : Name) (child slot : VPtr) : Prop :=
  ∃ dc, visibleEntry st R slot = some dc ∧ dc.name = some name ∧ dc.childPtr = child

/-- The first slot of the list that shows the name shows `child` under it. -/
def FirstShows (st : State) (R : Int) (name : Name) (child : VPtr) (slots : List VPtr) : Prop :=
  ∃ newer slot older, slots = newer ++ slot :: older ∧ Shows st R name child slot ∧
    ∀ v ∈ newer, ∀ c, ¬ Shows st R name c v

/-- What moving the slot's links must not touch at another epoch, where a lookup takes the first of the
links of the name's leaf, and then of all slots, that shows the name. Take the name that the slot shows
there. If it has the leaf of `dst`, in front of which the slot is put, the slot's child is first already.
If it has the leaf of `src` alone, the same child is first without the slot's links. -/
def LinksKeep (st : State) (dir slot : VPtr) (src dst : Name) (R : Int) : Prop :=
  ∀ d name child, st.nodes dir = some (.dir d) → name ≠ [] → Shows st R name child slot →
    (leafOf name = leafOf dst → FirstShows st R name child (d.index (leafOf dst) ++ d.slotList)) ∧
    (leafOf name = leafOf src → leafOf name ≠ leafOf dst →
      ∀ c, FirstShows st R name c (d.index (leafOf src) ++ d.slotList) →
        FirstShows st R name c ((d.index (leafOf src)).filter (· ≠ slot) ++ d.slotList))

/-- The slot a rename takes for the child is the one slot that shows the name, and at the other epochs
moving its links is harmless. -/
def RenameSafe (st : State) (srcParent : VPtr) (src : Name) (dstParent : VPtr) (dst : Name)
    (child : VPtr) (epoch : Int) : Prop :=
  ∃ childId slot, dirchainFindChild st srcParent src epoch = .ok (child, childId) ∧
    SlotFound st srcParent src epoch child childId slot ∧
    (∀ slot' child', Lists st epoch srcParent slot' src child' → slot' = slot) ∧
    (srcParent = dstParent → ∀ R, Writable st R → R ≠ epoch → LinksKeep st srcParent slot src dst R)

theorem DirEdit.slot_zero (h : DirEdit epoch st st') (h0 : st.slots 0 = none) : st'.slots 0 = none := by
  cases h with
  | insert dir d childId child name hdir hchild =>
    rw [insertEntry_slot_ne st (Nat.succ_ne_zero _).symm]
    exact h0
  | prepend slot s childId child name hslot hchild =>
    have hne : (0 : VPtr) ≠ slot := by
      rintro rfl
      simp [h0] at hslot
    exact (Function.update_of_ne hne ..).trans h0
  | node => exact h0
  | reindex => exact h0
  | bin => exact h0

theorem Outcome.slot_zero {op : Op} (h : Outcome st op st') (hwf : Wf st) (h0 : st.slots 0 = none) :
    st'.slots 0 = none := by
  cases h with
  | same => exact h0
  | dir _ epoch _ _ _ hw h =>
    induction h with
    | refl => exact h0
    | tail _ hedit ih => exact hedit.slot_zero ih
  | write _ epoch _ _ hw h => rw [(h.keeps hwf.epoch hw hwf.file).kept.slots, h0]
  | read _ _ h => rw [(FileEdits.dirsKept h).slots, h0]
  | snapshot hlt => exact h0
  | commit S st1 _ h hm => rw [hm.move.slots, (FileEdits.dirsKept h).slots, h0]
  | delete S _ hm => rw [hm.move.slots, h0]

theorem reachable_slot_zero {pageSize segmentSize : Nat} (hp : 0 < pageSize) (hs : 0 < segmentSize)
    {ops : List Op} (h : Run.AllSteps step ValidOp (bootstrap pageSize segmentSize) ops) :
    (run (bootstrap pageSize segmentSize) ops).slots 0 = none := by
  refine (Run.invariant (fun st => Wf st ∧ st.slots 0 = none) (fun st op hinv hop => ?_)
    ⟨bootstrap_wf hp hs, rfl⟩ h).2
  exact ⟨step_wf hinv.1 hop, (step_outcome hinv.1 hop).slot_zero hinv.1 hinv.2⟩

theorem DirEdits.frame (h : DirEdits epoch st st') (hwf : Wf st) (he : Writable st epoch)
    (hR : Writable st R) (hne : R ≠ epoch) : Wf st' ∧ Frame st R st' R := by
  have hkeep := h.keeps hwf.epoch he hwf.dir
  have hfiles := h.filesKept hwf.epoch he hwf.dir
  exact ⟨⟨hkeep.epochWf, hkeep.dirWf, hfiles.fileWf hwf.file⟩, hkeep.grow,
    hkeep.entries R (writable_lt hR) hne, hfiles.sameFiles R⟩

theorem DirEdits.sameReads (h : DirEdits epoch st st') (hwf : Wf st) (he : Writable st epoch)
    (hR : Writable st R) (hne : R ≠ epoch)
    (hopen : ∀ v n, (st.nodes v).isSome → vfsOpen st' v n R = vfsOpen st v n R) :
    SameReads st R st' R := by
  obtain ⟨hwf', hframe⟩ := h.frame hwf he hR hne
  have hres := hwf.epoch.resolve_writable hR
  have hres' : resolve st'.mapperTable R = R := by
    rw [(h.keeps hwf.epoch he hwf.dir).same.table, hres]
  intro v hv
  exact ⟨fun n => hopen v n hv, vfsReaddir_frame hwf.dir hframe hv hres hres',
    vfsFileSize_frame hframe hv hres hres', vfsRead_frame hwf.file hwf'.file hframe hv hres hres'⟩

/-! ### Lookups through the moved links -/

theorem firstShows_cons (h : Shows st R name child slot) (slots : List VPtr) :
    FirstShows st R name child (slot :: slots) := ⟨[], slot, slots, rfl, h, nofun⟩

theorem firstShows_iff {slots : List VPtr} : FirstShows st R name child slots ↔
    ∃ id, slots.findSome? (checkSlotForName st R name) = some (child, id) := by
  have hshows : ∀ c v, Shows st R name c v ↔ ∃ id, checkSlotForName st R name v = some (c, id) := by
    simp [Shows, checkSlotForName_eq_some]
  have hnone : ∀ v, (∀ c, ¬ Shows st R name c v) ↔ checkSlotForName st R name v = none := by
    intro v
    simp [hshows, Option.eq_none_iff_forall_ne_some]
  simp only [FirstShows, hnone]
  simp only [hshows, List.findSome?_eq_some_iff]
  constructor
  · rintro ⟨newer, v, older, hlist, ⟨id, hv⟩, hnewer⟩
    exact ⟨id, newer, v, older, hlist, hv, hnewer⟩
  · rintro ⟨id, newer, v, older, hlist, hv, hnewer⟩
    exact ⟨newer, v, older, hlist, ⟨id, hv⟩, hnewer⟩

/-- A zeroed link leads nowhere, so the links and the slots are one list to a lookup. -/
theorem vfsOpen_eq_first (hzero : st.slots 0 = none) {d : DirNode} (hd : st.nodes dir = some (.dir d))
    (hne : name ≠ []) (e : Int) :
    vfsOpen st dir name e = match (d.index (leafOf name) ++ d.slotList).findSome?
        (checkSlotForName st (resolve st.mapperTable e) name) with
      | some r => .ok r.1
      | none => .error .notFound := by
  have hlink : (fun link => if link = 0 then none
      else checkSlotForName st (resolve st.mapperTable e) name link) =
        checkSlotForName st (resolve st.mapperTable e) name := by
    funext link
    split
    · rename_i h0
      rw [h0, checkSlotForName, visibleEntry, hzero]
    · rfl
  simp only [vfsOpen, dirchainFindChild, hne, hd, hlink, List.findSome?_append, if_false]
  cases ((d.index (leafOf name)).findSome?
    (checkSlotForName st (resolve st.mapperTable e) name)).or _ <;> rfl

theorem vfsOpen_ok_iff_first (hzero : st.slots 0 = none) {d : DirNode} (hd : st.nodes dir = some (.dir d))
    (hne : name ≠ []) (e : Int) : vfsOpen st dir name e = .ok child ↔
      FirstShows st (resolve st.mapperTable e) name child (d.index (leafOf name) ++ d.slotList) := by
  rw [vfsOpen_eq_first hzero hd hne, firstShows_iff]
  cases (d.index (leafOf name) ++ d.slotList).findSome?
      (checkSlotForName st (resolve st.mapperTable e) name) with
  | none => simp
  | some r => simp [Prod.ext_iff]

theorem findSome_zeroed {β : Type} {f : VPtr → Option β} (h0 : f 0 = none) (links rest : List VPtr) :
    ((links.map fun l => if l = slot then 0 else l) ++ rest).findSome? f =
      (links.filter (· ≠ slot) ++ rest).findSome? f := by
  induction links with
  | nil => rfl
  | cons l links ih =>
    by_cases hl : l = slot
    · rw [List.map_cons, if_pos hl, List.cons_append, List.findSome?_cons, h0,
        List.filter_cons_of_neg (by simpa using hl)]
      exact ih
    · rw [List.map_cons, if_neg hl, List.cons_append, List.findSome?_cons,
        List.filter_cons_of_pos (by simpa using hl), List.cons_append, List.findSome?_cons, ih]

section Relinked

variable {d : DirNode} (hwf : Wf st) (hR : Writable st R) (hzero : st.slots 0 = none)
  {src dst : Name}
include hwf hR hzero

theorem relinked_open (hne : name ≠ []) :
    vfsOpen (setIndex st dir d (relinked d slot src dst)) dir name R = .ok child ↔
      FirstShows st R name child (relinked d slot src dst (leafOf name) ++ d.slotList) := by
  have hd' : (setIndex st dir d (relinked d slot src dst)).nodes dir =
      some (.dir { d with index := relinked d slot src dst }) := Function.update_self ..
  have hzero' : (setIndex st dir d (relinked d slot src dst)).slots 0 = none := hzero
  have hres : resolve (setIndex st dir d (relinked d slot src dst)).mapperTable R = R :=
    hwf.epoch.resolve_writable hR
  rw [vfsOpen_ok_iff_first hzero' hd' hne, hres]
  exact Iff.rfl

theorem relinked_open_dst (hne : name ≠ []) (hleaf : leafOf name = leafOf dst)
    (hshows : Shows st R name child slot) :
    vfsOpen (setIndex st dir d (relinked d slot src dst)) dir name R = .ok child := by
  rw [relinked_open hwf hR hzero hne, relinked, indexInsert, hleaf, Function.update_self, List.cons_append]
  exact firstShows_cons hshows _

theorem relinked_open_src (hne : name ≠ []) (hleaf : leafOf name = leafOf src)
    (hleaf' : leafOf name ≠ leafOf dst) :
    vfsOpen (setIndex st dir d (relinked d slot src dst)) dir name R = .ok child ↔
      FirstShows st R name child ((d.index (leafOf src)).filter (· ≠ slot) ++ d.slotList) := by
  have h0 : checkSlotForName st R name 0 = none := by rw [checkSlotForName, visibleEntry, hzero]
  rw [relinked_open hwf hR hzero hne, relinked, indexInsert, Function.update_of_ne hleaf', hleaf, indexRemove,
    Function.update_self, firstShows_iff, findSome_zeroed h0, ← firstShows_iff]

omit hzero in
/-- A slot that does not show the name is followed in vain, so its links may be anywhere. -/
theorem relinked_open_hidden (hd : st.nodes dir = some (.dir d)) (hhidden : ∀ c, ¬ Shows st R name c slot) :
    vfsOpen (setIndex st dir d (relinked d slot src dst)) dir name R = vfsOpen st dir name R := by
  have hres := hwf.epoch.resolve_writable hR
  have hnone : checkLink st R name slot = none := by
    rw [checkLink, checkSlotForName_eq_none.2 fun dc hdc hname => hhidden _ ⟨dc, hdc, hname, rfl⟩]
    split <;> rfl
  refine vfsOpen_of_findChild (findChild_congr hd (Function.update_self ..) ?_ rfl)
  rw [show resolve (setIndex st dir d (relinked d slot src dst)).mapperTable R = R from hres, hres]
  show (relinked d slot src dst (leafOf name)).findSome? (checkLink st R name) = _
  rw [relinked, findSome_indexInsert hnone, findSome_indexRemove (if_pos rfl) hnone]

/-- The lookups at `R` through the moved links are those through the old ones just when `LinksKeep`. -/
theorem relinked_open_iff (hd : st.nodes dir = some (.dir d)) (hmem : slot ∈ d.slotList) :
    (∀ n, vfsOpen (setIndex st dir d (relinked d slot src dst)) dir n R = vfsOpen st dir n R) ↔
      LinksKeep st dir slot src dst R := by
  have hres := hwf.epoch.resolve_writable hR
  have hold : ∀ n c, n ≠ [] → (vfsOpen st dir n R = .ok c ↔
      FirstShows st R n c (d.index (leafOf n) ++ d.slotList)) := by
    intro n c hne
    rw [vfsOpen_ok_iff_first hzero hd hne, hres]
  constructor
  · intro hkeep d' n c hd' hne hshows
    obtain rfl : d = d' := by simpa [hd] using hd'
    refine ⟨fun hleaf => ?_, fun hleaf hleaf' c' hfirst => ?_⟩
    · rw [← hleaf, ← hold n c hne, ← hkeep n]
      exact relinked_open_dst hwf hR hzero hne hleaf hshows
    · rw [← hleaf, ← hold n c' hne, ← hkeep n] at hfirst
      exact (relinked_open_src hwf hR hzero hne hleaf hleaf').1 hfirst
  · intro hkeep n
    by_cases hne : n = []
    · simp [vfsOpen, dirchainFindChild, hne]
    by_cases hshows : ∃ c, Shows st R n c slot
    · -- the slot shows the name, so something is found under it
      obtain ⟨c, hc⟩ := hshows
      obtain ⟨hdst, hsrc⟩ := hkeep d n c hd hne hc
      obtain ⟨c', hc'⟩ : ∃ c', vfsOpen st dir n R = .ok c' := by
        obtain ⟨c', -, hc', -⟩ | ⟨-, hnone⟩ := vfsOpen_cases hwf.dir hd hne R
        · exact ⟨c', hc'⟩
        · obtain ⟨dc, hdc, hname, hchild⟩ := hc
          rw [hres] at hnone
          exact absurd ⟨d, dc, hd, hmem, hdc, hname, hchild⟩ (hnone slot c)
      have hfirst := (hold n c' hne).1 hc'
      by_cases hleaf : leafOf n = leafOf dst
      · rw [relinked_open_dst hwf hR hzero hne hleaf hc, (hold n c hne).2]
        rw [hleaf]
        exact hdst hleaf
      rw [hc']
      by_cases hleaf' : leafOf n = leafOf src
      · rw [hleaf'] at hfirst
        exact (relinked_open_src hwf hR hzero hne hleaf' hleaf).2 (hsrc hleaf' hleaf c' hfirst)
      · rwa [relinked_open hwf hR hzero hne, relinked, indexInsert, Function.update_of_ne hleaf, indexRemove,
          Function.update_of_ne hleaf']
    · exact relinked_open_hidden hwf hR hd fun c hc => hshows ⟨c, hc⟩

end Relinked

/-- Moving links is harmless where no name of the directory stands for two different children. -/
theorem linksKeep_of_oneChild (hwf : DirWf st) (hzero : st.slots 0 = none) {d : DirNode}
    (hd : st.nodes dir = some (.dir d)) (hmem : slot ∈ d.slotList) (src dst : Name)
    (hone : ∀ n v v' c c', Lists st R dir v n c → Lists st R dir v' n c' → c = c') :
    LinksKeep st dir slot src dst R := by
  intro d' n c hd' _ hshows
  obtain rfl : d = d' := by simpa [hd] using hd'
  have hsame : ∀ leaf c', (∃ v ∈ d.index leaf ++ d.slotList, Shows st R n c' v) → c' = c := by
    rintro leaf c' ⟨v, hv, dc, hdc, hname, hchild⟩
    have hv0 : v ≠ 0 := by
      rintro rfl
      simp [visibleEntry, hzero] at hdc
    have hslot : v ∈ d.slotList := (List.mem_append.1 hv).elim (hwf.index dir d hd leaf v · hv0) id
    obtain ⟨dc', hdc', hname', hchild'⟩ := hshows
    exact hone n v slot c' c ⟨d, dc, hd, hslot, hdc, hname, hchild⟩ ⟨d, dc', hd, hmem, hdc', hname', hchild'⟩
  have hfirst : ∀ leaf links, (∀ v ∈ links, v ∈ d.index leaf) →
      FirstShows st R n c (links ++ d.slotList) := by
    intro leaf links hlinks
    obtain ⟨dc, hdc, hname, -⟩ := hshows
    have hsome : ((links ++ d.slotList).findSome? (checkSlotForName st R n)).isSome :=
      List.findSome?_isSome_iff.2 ⟨slot, List.mem_append_right _ hmem, by simp [checkSlotForName, hdc, hname]⟩
    obtain ⟨⟨c', childId⟩, hc'⟩ := Option.isSome_iff_exists.1 hsome
    have hshown := firstShows_iff.2 ⟨childId, hc'⟩
    obtain ⟨newer, v, older, hlist, hv, -⟩ := id hshown
    have hvmem : v ∈ links ++ d.slotList := hlist ▸ List.mem_append_right _ List.mem_cons_self
    obtain rfl : c' = c := hsame leaf c' ⟨v,
      List.mem_append.2 ((List.mem_append.1 hvmem).imp_left (hlinks v)), hv⟩
    exact hshown
  refine ⟨fun _ => hfirst _ _ fun _ => id, fun _ _ c' hc' => ?_⟩
  obtain ⟨newer, v, older, hlist, hv, -⟩ := hc'
  obtain rfl : c' = c := hsame _ c' ⟨v, hlist ▸ List.mem_append_right _ List.mem_cons_self, hv⟩
  exact hfirst _ _ fun _ => List.mem_of_mem_filter

/-- The volume after a rename within a directory that takes `slot` for the child. -/
def renamedWithin (st : State) (dir : VPtr) (d : DirNode) (slot : VPtr) (s : SlotNode) (childId : Nat)
    (child : VPtr) (src dst : Name) (epoch : Int) (entries : List BinEntry) : State :=
  { setIndex (prependEntry st slot s childId child (some dst) epoch) dir d (relinked d slot src dst) with
    bin := entries }

/-- The volume after a rename to another directory that takes `slot` for the child. -/
def renamedAcross (st : State) (dstParent : VPtr) (dDst : DirNode) (slot : VPtr) (s : SlotNode)
    (childId : Nat) (child : VPtr) (dst : Name) (epoch : Int) (entries : List BinEntry) : State :=
  { prependEntry (insertEntry st dstParent dDst childId child dst epoch) slot s childId child none epoch with
    bin := entries }

theorem vfsRename_ok (hwf : DirWf st) {srcParent dstParent : VPtr} {src dst : Name}
    (hfind : dirchainFindChild st srcParent src epoch = .ok (child, childId))
    (h : (vfsRename st srcParent src dstParent dst epoch).1 = .ok ()) :
    src ≠ [] ∧ dst ≠ [] ∧ ∃ d slot s entries, st.nodes srcParent = some (.dir d) ∧
      dirchainFindSlotnode st d childId = some slot ∧ st.slots slot = some s ∧
      (srcParent = dstParent ∧ (vfsRename st srcParent src dstParent dst epoch).2 =
          renamedWithin st srcParent d slot s childId child src dst epoch entries ∨
        srcParent ≠ dstParent ∧ ∃ dDst, st.nodes dstParent = some (.dir dDst) ∧
          (vfsRename st srcParent src dstParent dst epoch).2 =
            renamedAcross st dstParent dDst slot s childId child dst epoch entries) := by
  obtain ⟨e, hs⟩ | ⟨dSrc, dDst, childId', child', hnames, -, hsrc, hdst, hfind', hmove⟩ :=
    vfsRename_call st srcParent src dstParent dst epoch
  · rw [hs] at h
    cases h
  cases hfind.symm.trans hfind'
  refine ⟨hnames.1, hnames.2, dSrc, ?_⟩
  obtain ⟨heq, st', entries, hwithin, hs⟩ | ⟨hne, vp, st', entries, hsome, hs⟩ | ⟨-, -, hs⟩ := hmove
  · obtain ⟨slot, s, hslot, hs', rfl⟩ := renameWithin_eq_some hwithin
    exact ⟨slot, s, entries, hsrc, hslot, hs', .inl ⟨heq, congrArg Prod.snd hs⟩⟩
  · obtain ⟨-, hnone⟩ | ⟨slot, s, vp', hslot, hs', heq⟩ :=
      renameAcross_cases hwf hsrc dstParent dDst childId child dst epoch
    · simp [hnone] at hsome
    · cases heq.symm.trans hsome
      exact ⟨slot, s, entries, hsrc, hslot, hs', .inr ⟨hne, dDst, hdst, congrArg Prod.snd hs⟩⟩
  · rw [hs] at h
    cases h

section Lookups

theorem vfsOpen_same_node (hwf : DirWf st) (htable : st'.mapperTable = st.mapperTable)
    (hnode : st'.nodes dir = st.nodes dir) {e : Int}
    (h : ∀ d, st.nodes dir = some (.dir d) → ∀ v ∈ d.slotList,
      checkSlotForName st' (resolve st.mapperTable e) name v =
        checkSlotForName st (resolve st.mapperTable e) name v) :
    vfsOpen st' dir name e = vfsOpen st dir name e := by
  refine vfsOpen_of_findChild ?_
  rcases hn : st.nodes dir with _ | d | f
  · simp [dirchainFindChild, hn, hnode]
  · refine findChild_congr hn (hnode.trans hn) (findSome_congr fun l hl => ?_) (findSome_congr fun v hv => ?_)
    · rw [htable, checkLink, checkLink]
      split
      · rfl
      · rename_i hne
        exact h d hn l (hwf.index dir d hn _ l hl hne)
    · rw [htable]
      exact h d hn v hv
  · simp [dirchainFindChild, hn, hnode]

theorem vfsOpen_linked (hwf : DirWf st) (htable : st'.mapperTable = st.mapperTable) {d : DirNode} {n : Name} {e : Int}
    (hd : st.nodes dir = some (.dir d)) (hd' : st'.nodes dir = some (.dir { d with
      segments := linkSlot d.segments slot
      index := indexInsert d.index n slot }))
    (hold : ∀ v ∈ d.slotList, checkSlotForName st' (resolve st.mapperTable e) name v =
      checkSlotForName st (resolve st.mapperTable e) name v)
    (hnew : checkSlotForName st' (resolve st.mapperTable e) name slot = none) :
    vfsOpen st' dir name e = vfsOpen st dir name e := by
  obtain ⟨pre, post, hlist, hlist'⟩ := slotList_link d slot (indexInsert d.index n slot)
  refine vfsOpen_of_findChild (findChild_congr hd hd' ?_ ?_)
  · have hlink : checkLink st' (resolve st.mapperTable e) name slot = none := by
      rw [checkLink, hnew]
      split <;> rfl
    rw [htable]
    dsimp only
    rw [findSome_indexInsert hlink]
    refine findSome_congr fun l hl => ?_
    rw [checkLink, checkLink]
    split
    · rfl
    · rename_i hl0
      exact hold l (hwf.index dir d hd _ l hl hl0)
  · rw [htable, hlist', findSome_insert hnew, ← hlist]
    exact findSome_congr hold

theorem checkSlot_congr {v : VPtr} (h : visibleEntry st' R v = visibleEntry st R v) :
    checkSlotForName st' R name v = checkSlotForName st R name v := by
  rw [checkSlotForName, checkSlotForName, h]

theorem checkSlot_of_lists {v c : VPtr} {n : Name} (hl : Lists st R dir v n c) (hne : name ≠ n) :
    checkSlotForName st R name v = none := by
  obtain ⟨d, dc, -, -, hdc, hname, -⟩ := hl
  refine checkSlotForName_eq_none.2 fun dc' hdc' heq => hne ?_
  rw [hdc] at hdc'
  cases hdc'
  rw [heq] at hname
  exact Option.some.inj hname

theorem vfsOpen_first_link {d : DirNode} {e : Int} {links : List VPtr} (hd : st.nodes dir = some (.dir d))
    (hne : name ≠ []) (hlinks : d.index (leafOf name) = slot :: links) (hslot : slot ≠ 0)
    (hcheck : checkSlotForName st (resolve st.mapperTable e) name slot = some (child, childId)) :
    vfsOpen st dir name e = .ok child := by
  simp [vfsOpen, dirchainFindChild, hne, hd, hlinks, hslot, hcheck, Except.map]

end Lookups

section Within

variable {d : DirNode} {s : SlotNode} {src dst : Name} {entries : List BinEntry}
  (hst : st' = renamedWithin st dir d slot s childId child src dst epoch entries)
include hst

theorem within_node : st'.nodes dir = some (.dir { d with index := relinked d slot src dst }) := by
  rw [hst]
  exact Function.update_self ..

theorem within_table : st'.mapperTable = st.mapperTable := by
  rw [hst]
  rfl

theorem within_open {e : Int}
    (hentries : SameEntries st (resolve st.mapperTable e) st' (resolve st.mapperTable e)) (n : Name) :
    vfsOpen st' dir n e = vfsOpen (setIndex st dir d (relinked d slot src dst)) dir n e := by
  have hcheck : checkSlotForName st' (resolve st'.mapperTable e) n =
      checkSlotForName (setIndex st dir d (relinked d slot src dst)) (resolve st.mapperTable e) n := by
    funext v
    rw [within_table hst]
    exact checkSlot_congr (hentries v)
  have hlink : checkLink st' (resolve st'.mapperTable e) n =
      checkLink (setIndex st dir d (relinked d slot src dst)) (resolve st.mapperTable e) n := by
    funext v
    rw [checkLink, checkLink, hcheck]
  exact vfsOpen_of_findChild (findChild_congr (Function.update_self ..) (within_node hst)
    (congrArg (List.findSome? · _) hlink) (congrArg (List.findSome? · _) hcheck))

variable (hwf : Wf st) (he : Writable st epoch)
include hwf he

theorem within_entry (v : VPtr) : visibleEntry st' epoch v =
    if v = slot then some ⟨st.nextVp, epoch, childId, child, some dst⟩ else visibleEntry st epoch v := by
  rw [hst]
  exact visibleEntry_prependEntry hwf.epoch he slot s childId child (some dst) v

theorem within_target (hzero : st.slots 0 = none) (hs : st.slots slot = some s) (hdst : dst ≠ []) :
    vfsOpen st' dir dst epoch = .ok child := by
  have hslot : slot ≠ 0 := by
    rintro rfl
    simp [hzero] at hs
  have hcheck : checkSlotForName st' (resolve st'.mapperTable epoch) dst slot = some (child, childId) := by
    rw [within_table hst, hwf.epoch.resolve_writable he, checkSlotForName, within_entry hst hwf he, if_pos rfl]
    simp
  exact vfsOpen_first_link (within_node hst) hdst (Function.update_self ..) hslot hcheck

variable (hd : st.nodes dir = some (.dir d))
include hd

theorem within_lists_src (hne : src ≠ dst) {v c : VPtr} :
    Lists st' epoch dir v src c ↔ v ≠ slot ∧ Lists st epoch dir v src c := by
  constructor
  · rintro ⟨d', dc, hd', hv, hdc, hname, hchild⟩
    rw [within_node hst] at hd'
    cases hd'
    rw [within_entry hst hwf he] at hdc
    split at hdc
    · cases hdc
      exact absurd (Option.some.inj hname).symm hne
    · rename_i hvs
      exact ⟨hvs, d, dc, hd, hv, hdc, hname, hchild⟩
  · rintro ⟨hvs, d', dc, hd', hv, hdc, hname, hchild⟩
    rw [hd] at hd'
    cases hd'
    refine ⟨_, dc, within_node hst, hv, ?_, hname, hchild⟩
    rw [within_entry hst hwf he, if_neg hvs]
    exact hdc

theorem within_names {src' : Name} {c : VPtr} (hmem : slot ∈ d.slotList) (hl : Lists st epoch dir slot src' c)
    {dir' : VPtr} {n : Name} (hsrc : dir' = dir → n ≠ src') (hdst : dir' = dir → n ≠ dst) :
    vfsOpen st' dir' n epoch = vfsOpen st dir' n epoch := by
  have hres := hwf.epoch.resolve_writable he
  have hother : ∀ v, v ≠ slot → checkSlotForName st' epoch n v = checkSlotForName st epoch n v := by
    intro v hv
    refine checkSlot_congr ?_
    rw [within_entry hst hwf he, if_neg hv]
  by_cases hdir : dir' = dir
  · subst hdir
    have hold : checkSlotForName st epoch n slot = none := checkSlot_of_lists hl (hsrc rfl)
    have hnew : checkSlotForName st' epoch n slot = none := by
      refine checkSlotForName_eq_none.2 fun dc hdc hname => hdst rfl ?_
      rw [within_entry hst hwf he, if_pos rfl] at hdc
      cases hdc
      exact (Option.some.inj hname).symm
    have hcheck : checkSlotForName st' epoch n = checkSlotForName st epoch n := by
      funext v
      by_cases hv : v = slot
      · rw [hv, hold, hnew]
      · exact hother v hv
    have hlink : checkLink st' epoch n = checkLink st epoch n := by
      funext v
      rw [checkLink, checkLink, hcheck]
    have hlink_slot : checkLink st epoch n slot = none := by
      rw [checkLink, hold]
      split <;> rfl
    refine vfsOpen_of_findChild (findChild_congr hd (within_node hst) ?_ ?_)
    · rw [within_table hst, hres, hlink]
      dsimp only
      rw [relinked, findSome_indexInsert hlink_slot, findSome_indexRemove (if_pos rfl) hlink_slot]
    · rw [within_table hst, hres, hcheck]
      rfl
  · have hnode : st'.nodes dir' = st.nodes dir' := by
      rw [hst]
      exact Function.update_of_ne hdir ..
    refine vfsOpen_same_node hwf.dir (within_table hst) hnode fun d' hd' v hv => ?_
    rw [hres]
    refine hother v ?_
    rintro rfl
    exact hdir (hwf.dir.slot_dir dir' d' dir d v hd' hd hv hmem)

variable (hslot : dirchainFindSlotnode st d childId = some slot) (hs : st.slots slot = some s)
include hslot hs

omit he in
theorem within_edits (hchild : (st.nodes child).isSome) : DirEdits epoch st st' := by
  rw [hst]
  exact Renamed.edits (.within d slot s entries rfl hd hslot hs) hwf.dir hchild

theorem within_source_iff (hchild : (st.nodes child).isSome) (hsrc : src ≠ []) (hne : src ≠ dst) :
    vfsOpen st' dir src epoch = .error .notFound ↔
      ∀ slot' child', Lists st epoch dir slot' src child' → slot' = slot := by
  have hkeep := (within_edits hst hwf hd hslot hs hchild).keeps hwf.epoch he hwf.dir
  exact notFound_iff_only hwf he hkeep (within_node hst) hsrc
    fun v c => within_lists_src hst hwf he hd hne

theorem within_effect (hzero : st.slots 0 = none) (hsrc : src ≠ []) (hdst : dst ≠ [])
    (hne : src ≠ dst) (hl : Lists st epoch dir slot src child)
    (honly : ∀ slot' child', Lists st epoch dir slot' src child' → slot' = slot)
    (hlinks : ∀ R, Writable st R → R ≠ epoch → LinksKeep st dir slot src dst R) :
    RenameEffect st st' dir src dir dst child epoch := by
  have hedits := within_edits hst hwf hd hslot hs (lists_child_isSome hwf.dir hl)
  have hmem := findSlotnode_mem hslot
  constructor
  · exact within_target hst hwf he hzero hs hdst
  · exact (within_source_iff hst hwf he hd hslot hs (lists_child_isSome hwf.dir hl) hsrc hne).2 honly
  · intro dir' n hn hn'
    refine within_names hst hwf he hd hmem hl ?_ ?_
    · rintro rfl rfl
      exact hn rfl
    · rintro rfl rfl
      exact hn' rfl
  · intro R hR hne'
    refine hedits.sameReads hwf he hR hne' fun v n hv => ?_
    obtain ⟨-, hframe⟩ := hedits.frame hwf he hR hne'
    have hres := hwf.epoch.resolve_writable hR
    by_cases hdir : v = dir
    · subst hdir
      exact (within_open hst (by rw [hres]; exact hframe.entries) n).trans
        ((relinked_open_iff hwf hR hzero hd hmem).2 (hlinks R hR hne') n)
    · have hnode : st'.nodes v = st.nodes v := by
        rw [hst]
        exact Function.update_of_ne hdir ..
      refine vfsOpen_same_node hwf.dir (within_table hst) hnode fun _ _ w _ => ?_
      rw [hres]
      exact checkSlot_congr (hframe.entries w)

theorem within_effect_iff (hfind : dirchainFindChild st dir src epoch = .ok (child, childId))
    (hzero : st.slots 0 = none) (hsrc : src ≠ []) (hdst : dst ≠ []) (hne : src ≠ dst) :
    RenameEffect st st' dir src dir dst child epoch ↔ RenameSafe st dir src dir dst child epoch := by
  have hchild := findChild_isSome hwf.dir hfind
  constructor
  · intro heff
    have honly := (within_source_iff hst hwf he hd hslot hs hchild hsrc hne).1 heff.source
    refine ⟨childId, slot, hfind, slotFound_of_others hd hfind hslot hwf he honly, honly,
      fun _ R hR hne' => (relinked_open_iff hwf hR hzero hd (findSlotnode_mem hslot)).1 fun n => ?_⟩
    obtain ⟨-, hframe⟩ := (within_edits hst hwf hd hslot hs hchild).frame hwf he hR hne'
    have hopen := (heff.epochs R hR hne' dir (by rw [hd]; rfl)).1 n
    rwa [within_open hst (by rw [hwf.epoch.resolve_writable hR]; exact hframe.entries) n] at hopen
  · rintro ⟨childId', slot', hfind', hfound, honly, hlinks⟩
    obtain ⟨rfl, hl⟩ := slotFound_eq hd hfind hslot hfind' hfound
    exact within_effect hst hwf he hd hslot hs hzero hsrc hdst hne hl honly (hlinks rfl)

end Within

section Across

variable {d dDst : DirNode} {s : SlotNode} {src dst : Name} {srcParent dstParent : VPtr}
  {entries : List BinEntry}
  (hst : st' = renamedAcross st dstParent dDst slot s childId child dst epoch entries)
include hst

theorem across_node_dst : st'.nodes dstParent = some (.dir { dDst with
    segments := linkSlot dDst.segments (st.nextVp + 1)
    index := indexInsert dDst.index dst (st.nextVp + 1) }) := by
  rw [hst]
  exact Function.update_self ..

theorem across_node_ne (hne : dir ≠ dstParent) : st'.nodes dir = st.nodes dir := by
  rw [hst]
  exact Function.update_of_ne hne ..

theorem across_open (hwf : DirWf st) {n : Name} {e : Int} (hdst : st.nodes dstParent = some (.dir dDst))
    (hold : ∀ d, st.nodes dir = some (.dir d) → ∀ v ∈ d.slotList,
      checkSlotForName st' (resolve st.mapperTable e) n v =
        checkSlotForName st (resolve st.mapperTable e) n v)
    (hnew : dir = dstParent → checkSlotForName st' (resolve st.mapperTable e) n (st.nextVp + 1) = none) :
    vfsOpen st' dir n e = vfsOpen st dir n e := by
  have htable : st'.mapperTable = st.mapperTable := by
    rw [hst]
    rfl
  by_cases hdir : dir = dstParent
  · subst hdir
    exact vfsOpen_linked hwf htable hdst (across_node_dst hst) (hold dDst hdst) (hnew rfl)
  · exact vfsOpen_same_node hwf htable (across_node_ne hst hdir) hold

variable (hwf : Wf st) (he : Writable st epoch)
include hwf he

theorem across_entry (v : VPtr) : visibleEntry st' epoch v =
    if v = slot then some ⟨st.nextVp + 2, epoch, childId, child, none⟩
    else if v = st.nextVp + 1 then some ⟨st.nextVp, epoch, childId, child, some dst⟩
    else visibleEntry st epoch v := by
  have hep : EpochWf (insertEntry st dstParent dDst childId child dst epoch) :=
    ⟨hwf.epoch.1, hwf.epoch.2, hwf.epoch.3, hwf.epoch.4, hwf.epoch.5⟩
  rw [hst]
  refine (visibleEntry_prependEntry hep he slot s childId child none v).trans ?_
  rw [visibleEntry_insertEntry hwf.epoch he]
  rfl

theorem across_old {d' : DirNode} (hd' : st.nodes dir = some (.dir d')) {v : VPtr}
    (hv : v ∈ d'.slotList) (hvs : v ≠ slot) : visibleEntry st' epoch v = visibleEntry st epoch v := by
  rw [across_entry hst hwf he, if_neg hvs, if_neg]
  rintro rfl
  exact hwf.dir.fresh_not_mem hd' (by lia) hv

theorem across_target (hdst : dst ≠ []) (hfresh : slot ≠ st.nextVp + 1) :
    vfsOpen st' dstParent dst epoch = .ok child := by
  have hres : resolve st'.mapperTable epoch = epoch := by
    rw [hst]
    exact hwf.epoch.resolve_writable he
  have hcheck : checkSlotForName st' (resolve st'.mapperTable epoch) dst (st.nextVp + 1) =
      some (child, childId) := by
    rw [hres, checkSlotForName, across_entry hst hwf he, if_neg hfresh.symm, if_pos rfl]
    simp
  exact vfsOpen_first_link (across_node_dst hst) hdst (Function.update_self ..) (Nat.succ_ne_zero _) hcheck

theorem across_lists_src (hne : srcParent ≠ dstParent) {v c : VPtr} :
    Lists st' epoch srcParent v src c ↔ v ≠ slot ∧ Lists st epoch srcParent v src c := by
  constructor
  · rintro ⟨d', dc, hd', hv, hdc, hname, hchild⟩
    rw [across_node_ne hst hne] at hd'
    by_cases hvs : v = slot
    · rw [across_entry hst hwf he, if_pos hvs] at hdc
      cases hdc
      cases hname
    · rw [across_old hst hwf he hd' hv hvs] at hdc
      exact ⟨hvs, d', dc, hd', hv, hdc, hname, hchild⟩
  · rintro ⟨hvs, d', dc, hd', hv, hdc, hname, hchild⟩
    refine ⟨d', dc, (across_node_ne hst hne).trans hd', hv, ?_, hname, hchild⟩
    rw [across_old hst hwf he hd' hv hvs]
    exact hdc

variable (hd : st.nodes srcParent = some (.dir d)) (hdst : st.nodes dstParent = some (.dir dDst))
include hd hdst

theorem across_names (hmem : slot ∈ d.slotList)
    (hl : Lists st epoch srcParent slot src child) {dir : VPtr} {n : Name}
    (hn : dir = srcParent → n ≠ src) (hn' : dir = dstParent → n ≠ dst) :
    vfsOpen st' dir n epoch = vfsOpen st dir n epoch := by
  have hres := hwf.epoch.resolve_writable he
  refine across_open hst hwf.dir hdst (fun d' hd' v hv => ?_) fun hdir => ?_
  · rw [hres]
    by_cases hvs : v = slot
    · -- the child's slot belongs to the source directory and shows `src` before, nothing after
      subst hvs
      have hdir := hwf.dir.slot_dir dir d' srcParent d v hd' hd hv hmem
      rw [checkSlot_of_lists hl (hn hdir)]
      refine checkSlotForName_eq_none.2 fun dc hdc hname => ?_
      rw [across_entry hst hwf he, if_pos rfl] at hdc
      cases hdc
      cases hname
    · exact checkSlot_congr (across_old hst hwf he hd' hv hvs)
  · rw [hres]
    refine checkSlotForName_eq_none.2 fun dc hdc hname => hn' hdir ?_
    have hfresh : st.nextVp + 1 ≠ slot := by
      rintro rfl
      exact hwf.dir.fresh_not_mem hd (by lia) hmem
    rw [across_entry hst hwf he, if_neg hfresh, if_pos rfl] at hdc
    cases hdc
    exact (Option.some.inj hname).symm

variable (hne : srcParent ≠ dstParent) (hslot : dirchainFindSlotnode st d childId = some slot)
  (hs : st.slots slot = some s)
include hne hslot hs

omit he in
theorem across_edits (hchild : (st.nodes child).isSome) : DirEdits epoch st st' := by
  have hrenamed : Renamed st srcParent dstParent [] dst child childId epoch st' :=
    hst ▸ .across d dDst slot s entries hne hd hdst hslot hs
  exact hrenamed.edits hwf.dir hchild

theorem across_source_iff (hchild : (st.nodes child).isSome) (hsrc : src ≠ []) :
    vfsOpen st' srcParent src epoch = .error .notFound ↔
      ∀ slot' child', Lists st epoch srcParent slot' src child' → slot' = slot := by
  have hkeep := (across_edits hst hwf hd hdst hne hslot hs hchild).keeps hwf.epoch he hwf.dir
  exact notFound_iff_only hwf he hkeep ((across_node_ne hst hne).trans hd) hsrc
    fun v c => across_lists_src hst hwf he hne

theorem across_effect (hsrc : src ≠ []) (hname : dst ≠ []) (hl : Lists st epoch srcParent slot src child)
    (honly : ∀ slot' child', Lists st epoch srcParent slot' src child' → slot' = slot) :
    RenameEffect st st' srcParent src dstParent dst child epoch := by
  have hchild := lists_child_isSome hwf.dir hl
  have hedits := across_edits hst hwf hd hdst hne hslot hs hchild
  have hmem := findSlotnode_mem hslot
  constructor
  · refine across_target hst hwf he hname ?_
    rintro rfl
    exact hwf.dir.fresh_not_mem hd (by lia) hmem
  · exact (across_source_iff hst hwf he hd hdst hne hslot hs hchild hsrc).2 honly
  · intro dir n hn hn'
    refine across_names hst hwf he hd hdst hmem hl ?_ ?_
    · rintro rfl rfl
      exact hn rfl
    · rintro rfl rfl
      exact hn' rfl
  · intro R hR hne'
    obtain ⟨-, hframe⟩ := hedits.frame hwf he hR hne'
    have hres := hwf.epoch.resolve_writable hR
    refine hedits.sameReads hwf he hR hne' fun v n hv => ?_
    refine across_open hst hwf.dir hdst (fun _ _ w _ => ?_) fun _ => ?_
    · rw [hres]
      exact checkSlot_congr (hframe.entries w)
    · rw [hres, checkSlot_congr (hframe.entries _)]
      refine checkSlotForName_eq_none.2 fun dc hdc => ?_
      rw [visibleEntry_none (hwf.dir.slot_fresh _ (by lia))] at hdc
      cases hdc

theorem across_effect_iff (hfind : dirchainFindChild st srcParent src epoch = .ok (child, childId))
    (hsrc : src ≠ []) (hname : dst ≠ []) :
    RenameEffect st st' srcParent src dstParent dst child epoch ↔
      RenameSafe st srcParent src dstParent dst child epoch := by
  constructor
  · intro heff
    have honly := (across_source_iff hst hwf he hd hdst hne hslot hs (findChild_isSome hwf.dir hfind) hsrc).1
      heff.source
    exact ⟨childId, slot, hfind, slotFound_of_others hd hfind hslot hwf he honly, honly,
      fun h => absurd h hne⟩
  · rintro ⟨childId', slot', hfind', hfound, honly, -⟩
    obtain ⟨rfl, hl⟩ := slotFound_eq hd hfind hslot hfind' hfound
    exact across_effect hst hwf he hd hdst hne hslot hs hsrc hname hl honly

end Across

/-- **Rename effect.** In every volume reached by valid operations, a successful `vfs_rename` moves
exactly the link it was called for, and is not seen at the other active epochs, if and only if the
first slot of the source directory with the child's id is the one slot that shows the name, and, for a
rename within a directory, the links of both names' leaves are such that moving those of the slot
changes nothing at the other active epochs. -/
theorem rename_effect_iff {pageSize segmentSize : Nat} (hp : 0 < pageSize) (hs : 0 < segmentSize)
    (ops : List Op) (hrun : Run.AllSteps step ValidOp (bootstrap pageSize segmentSize) ops)
    {srcParent dstParent child : VPtr} {src dst : Name} {epoch : Int}
    (he : Writable (run (bootstrap pageSize segmentSize) ops) epoch)
    (hopen : vfsOpen (run (bootstrap pageSize segmentSize) ops) srcParent src epoch = .ok child)
    (hne : (srcParent, src) ≠ (dstParent, dst))
    (hok : (vfsRename (run (bootstrap pageSize segmentSize) ops) srcParent src dstParent dst epoch).1 =
      .ok ()) :
    let st := run (bootstrap pageSize segmentSize) ops
    RenameEffect st (vfsRename st srcParent src dstParent dst epoch).2 srcParent src dstParent dst child
        epoch ↔
      RenameSafe st srcParent src dstParent dst child epoch := by
  have hwf := reachable_wf hp hs hrun
  have hzero := reachable_slot_zero hp hs hrun
  revert hwf hzero he hopen hok
  generalize run (bootstrap pageSize segmentSize) ops = st
  intro he hopen hok hwf hzero
  obtain ⟨childId, hfind⟩ := vfsOpen_ok hopen
  obtain ⟨hsrc, hdst, d, slot, s, entries, hd, hslot, hs, hcases⟩ := vfsRename_ok hwf.dir hfind hok
  dsimp only
  obtain ⟨rfl, heq⟩ | ⟨hdirs, dDst, hdDst, heq⟩ := hcases
  · exact within_effect_iff heq hwf he hd hslot hs hfind hzero hsrc hdst fun h => hne (by rw [h])
  · exact across_effect_iff heq hwf he hd hdDst hdirs hslot hs hfind hsrc hdst

theorem movedFiles_safe : RenameSafe (run (bootstrap 8192 1024) movedFiles) 1 [99] 1 [97] 2 2 := by
  have hwf : Wf (run (bootstrap 8192 1024) movedFiles) :=
    reachable_wf (by decide) (by decide) movedFiles_valid
  obtain ⟨childId, slot, hfind, hfound, honly⟩ : OnlySlot (run (bootstrap 8192 1024) movedFiles) 1 [99] 2 2 :=
    onlySlot_of_alone hwf (.inl rfl) movedFiles_alone.1 (by decide +kernel)
  obtain ⟨d, hd, hslot, -⟩ := id hfound
  refine ⟨childId, slot, hfind, hfound, honly, fun _ R hR hne => ?_⟩
  obtain rfl : R = 1 := by
    obtain hhead | ⟨hodd, hpos, hlt, -⟩ := hR
    · exact absurd hhead hne
    · have hhead : (run (bootstrap 8192 1024) movedFiles).currentEpoch = 2 := by decide +kernel
      omega
  exact linksKeep_of_oneChild hwf.dir (reachable_slot_zero (by decide) (by decide) movedFiles_valid) hd
    (findSlotnode_mem hslot) [99] [97] (oneChild_of_alone hwf.dir movedFiles_alone.2)

/-- The renamed file gets its old name back at the head, while the snapshot shows it under that name. -/
theorem rename_effect_moved_files :
    let st := run (bootstrap 8192 1024) movedFiles
    RenameEffect st (vfsRename st 1 [99] 1 [97] 2).2 1 [99] 1 [97] 2 2 :=
  (rename_effect_iff (by decide) (by decide) movedFiles movedFiles_valid (.inl rfl) (by decide +kernel)
    (by decide) (by decide +kernel)).2 movedFiles_safe

/-- The rename at the head gives the new name to the newer slot, and the file keeps the old one. -/
theorem rename_leaves_older_slot :
    let st := run (bootstrap 8192 1024) movedAndBack
    Run.AllSteps step ValidOp (bootstrap 8192 1024) movedAndBack ∧ Writable st 2 ∧
      vfsOpen st 1 [102] 2 = .ok 2 ∧ (vfsRename st 1 [102] 1 [103] 2).1 = .ok () ∧
      vfsOpen (vfsRename st 1 [102] 1 [103] 2).2 1 [102] 2 = .ok 2 := by
  refine ⟨movedAndBack_valid, .inl rfl, ?_, ?_, ?_⟩
  · decide +kernel
  · decide +kernel
  · decide +kernel

end SphereVFS
