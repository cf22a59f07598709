import SphereVFS.ReaddirCursor
import SphereVFS.FuseReads
import SphereVFS.RmdirEffect

/-!
# SphereVFS.FuseListing

Whether the listings of the cache are those of the volume.

Every callback that changes a directory clears the first slot that holds it. That is enough as long as no
directory is in two slots, and it is in two when it was listed under two keys: by a path and by a handle, or by
two spellings of a path. A path that is not found is listed as the root.

A listing changes only under an operation on its own directory, whatever the epoch, and an operation that fails
changes none.
-/

namespace SphereVFS

/-! ## The callbacks -/

def fuseVfsOpendir (m : FuseVfsState) (path : Name) : Except Errno VPtr :=
  match resolveFullPath m.vfs m.epoch path with
  | .error e => .error (vfsErrorToErrno e)
  | .ok vp => if isDir m.vfs vp then .ok vp else .error .enotdir

def withInvalidation {α : Type} (callback : FuseVfsState → Except Errno α × FuseVfsState) (parents : List VPtr)
    (d : FuseDirMount) : Except Errno α × FuseDirMount :=
  let r := callback d.mount
  (r.1, ⟨r.2,
    match r.1 with
    | .ok _ => parents.foldl fusedirCacheInvalidateVp d.dirCache
    | .error _ => d.dirCache⟩)

def parentVps (m : FuseVfsState) (path : Name) : List VPtr :=
  match (parentAndName m path).1 with
  | .ok parent => [parent]
  | .error _ => []

def renameVps (m : FuseVfsState) (src dst : Name) : List VPtr :=
  match renameEnd m src, renameEnd m dst with
  | some (srcParent, _), some (dstParent, _) => [srcParent, dstParent]
  | _, _ => []

/-- The callbacks on directories. A handle is any pointer; a call by path has the handle `0`. -/
inductive DirCall where
  | opendir (path : Name)
  | readdir (path : Name) (fh : VPtr)
  | create (path : Name)
  | unlink (path : Name)
  | mkdir (path : Name)
  | rmdir (path : Name)
  | rename (src dst : Name)

/-- The mount after a callback, successful or not. A readdir changes the cache, whatever its offset and its
filler. -/
def dirStep (d : FuseDirMount) : DirCall → FuseDirMount
  | .opendir _ => d
  | .readdir path fh => (cachedListing d path fh).2
  | .create path => (withInvalidation (fuseVfsCreate · path) (parentVps d.mount path) d).2
  | .unlink path => (withInvalidation (fuseVfsUnlink · path) (parentVps d.mount path) d).2
  | .mkdir path => (withInvalidation (fuseVfsMkdir · path) (parentVps d.mount path) d).2
  | .rmdir path => (withInvalidation (fuseVfsRmdir · path) (parentVps d.mount path) d).2
  | .rename src dst => (withInvalidation (fuseVfsRename · src dst) (renameVps d.mount src dst) d).2

def denoted (m : FuseVfsState) (path : Name) (fh : VPtr) : Except Err VPtr :=
  if fh ≠ 0 then .ok fh else resolveFullPath m.vfs m.epoch path

/-- A readdir from offset `0` that succeeds lists the names that `vfs_readdir` gives for what the path or the
handle denotes; without that it fails. -/
def ListsCurrent (d : FuseDirMount) : DirCall → Prop
  | .readdir path fh => ∀ (σ : Type) (filler : Filler σ) (buf : σ),
    match denoted d.mount path fh with
    | .ok vp => ∀ f, (fuseVfsReaddir filler buf d path fh 0).1 = .ok f → f.refused = none →
        ∃ l, vfsReaddir d.mount.vfs vp d.mount.epoch = .ok l ∧
          f.accepted.map Prod.fst = ascii "." :: ascii ".." :: l.map Dirent.name
    | .error _ => ∃ e, (fuseVfsReaddir filler buf d path fh 0).1 = .error e
  | _ => True

/-- A path is found, and its hash is not `0`; and no slot holds the directory under another key. -/
def UnderOneKey (d : FuseDirMount) : DirCall → Prop
  | .readdir path fh =>
    (fh = 0 → isRootPath path = false → fusedirHashPath path ≠ 0 ∧
      (resolveFullPath d.mount.vfs d.mount.epoch path).isOk = true) ∧
    ∀ i, (d.dirCache.slots i).Used → (d.dirCache.slots i).dirVp = readdirVp d.mount path fh →
      (d.dirCache.slots i).hasKey (lookupHash path fh) fh = true
  | _ => True

/-! ## Listings that an operation does not change -/

variable {st st' : State} {v : VPtr}

structure DirKept (st st' : State) (v : VPtr) : Prop where
  table : st'.mapperTable = st.mapperTable
  dir : ∀ d, st.nodes v = some (.dir d) → ∃ d', st'.nodes v = some (.dir d') ∧ d'.slotList = d.slotList ∧
    ∀ slot ∈ d.slotList, st'.slots slot = st.slots slot

theorem DirKept.trans {st₁ st₂ st₃ : State} (h : DirKept st₁ st₂ v) (h' : DirKept st₂ st₃ v) : DirKept st₁ st₃ v := by
  refine ⟨h'.table.trans h.table, fun d hd => ?_⟩
  obtain ⟨d', hd', hlist, hslots⟩ := h.dir d hd
  obtain ⟨d'', hd'', hlist', hslots'⟩ := h'.dir d' hd'
  exact ⟨d'', hd'', hlist'.trans hlist, fun slot hslot =>
    (hslots' slot (hlist ▸ hslot)).trans (hslots slot hslot)⟩

theorem DirKept.of_eq (htable : st'.mapperTable = st.mapperTable) (hnode : st'.nodes v = st.nodes v)
    (hslots : ∀ d, st.nodes v = some (.dir d) → ∀ slot ∈ d.slotList, st'.slots slot = st.slots slot) :
    DirKept st st' v :=
  ⟨htable, fun d hd => ⟨d, hnode.trans hd, rfl, hslots d hd⟩⟩

theorem DirKept.refl (st : State) (v : VPtr) : DirKept st st v := .of_eq rfl rfl fun _ _ _ _ => rfl

theorem DirKept.insertEntry {dir : VPtr} {d : DirNode} (hv : v ≠ dir)
    (hfresh : ∀ d', st.nodes v = some (.dir d') → st.nextVp + 1 ∉ d'.slotList) (childId : Nat) (child : VPtr)
    (name : Name) (epoch : Int) : DirKept st (insertEntry st dir d childId child name epoch) v := by
  refine .of_eq rfl (Function.update_of_ne hv ..) fun d' hd' slot hslot => Function.update_of_ne ?_ ..
  rintro rfl
  exact hfresh d' hd' hslot

theorem DirKept.prependEntry {slot : VPtr} {s : SlotNode}
    (hslot : ∀ d, st.nodes v = some (.dir d) → slot ∉ d.slotList) (childId : Nat) (child : VPtr)
    (name : Option Name) (epoch : Int) : DirKept st (prependEntry st slot s childId child name epoch) v := by
  refine .of_eq rfl rfl fun d hd slot' hslot' => Function.update_of_ne ?_ ..
  rintro rfl
  exact hslot d hd hslot'

theorem DirKept.setIndex {dir : VPtr} {d : DirNode} (hd : st.nodes dir = some (.dir d)) (ix : DirIndex) :
    DirKept st (setIndex st dir d ix) v := by
  refine ⟨rfl, fun d' hd' => ?_⟩
  by_cases hv : v = dir
  · subst hv
    obtain rfl : d = d' := by simpa [hd] using hd'
    exact ⟨_, Function.update_self .., rfl, fun _ _ => rfl⟩
  · exact ⟨d', (Function.update_of_ne hv ..).trans hd', rfl, fun _ _ => rfl⟩

theorem DirKept.relink {parent slot : VPtr} {d : DirNode} {s : SlotNode} (hd : st.nodes parent = some (.dir d))
    (hslot : ∀ d', st.nodes v = some (.dir d') → slot ∉ d'.slotList) (childId : Nat) (child : VPtr)
    (name : Option Name) (epoch : Int) (ix : DirIndex) :
    DirKept st (SphereVFS.setIndex (SphereVFS.prependEntry st slot s childId child name epoch) parent d ix) v := by
  have hkeeps : (SphereVFS.prependEntry st slot s childId child name epoch).nodes parent = some (.dir d) := hd
  exact (DirKept.prependEntry hslot ..).trans (.setIndex hkeeps ix)

theorem DirKept.bin (entries : List BinEntry) : DirKept st { st with bin := entries } v :=
  .of_eq rfl rfl fun _ _ _ _ => rfl

section Operations

variable (hwf : DirWf st)
include hwf

theorem DirKept.addNode {parent : VPtr} {d : DirNode} (hv : v ≠ parent) (node : Node) (name : Name) (epoch : Int) :
    DirKept st (addNode st parent d node name epoch).2 v := by
  refine ⟨rfl, fun d' hd' => ⟨d', ?_, rfl, fun slot hslot => Function.update_of_ne ?_ ..⟩⟩
  · rw [addNode_nodes hv, hd']
    rintro rfl
    rw [hwf.node_fresh _ (Nat.le_refl _)] at hd'
    cases hd'
  · rintro rfl
    exact hwf.fresh_not_mem hd' (by lia) hslot

theorem slot_not_mem {parent slot : VPtr} {d : DirNode} (hd : st.nodes parent = some (.dir d))
    (hslot : slot ∈ d.slotList) (hv : v ≠ parent) : ∀ d', st.nodes v = some (.dir d') → slot ∉ d'.slotList :=
  fun d' hd' hmem => hv (hwf.slot_dir v d' parent d slot hd' hd hmem hslot)

theorem DirKept.putTombstone {parent child vp : VPtr} {d : DirNode} {childId : Nat} {name : Name} {epoch : Int}
    (hd : st.nodes parent = some (.dir d)) (hv : v ≠ parent)
    (hput : putTombstone st parent d childId child name epoch = some (vp, st')) : DirKept st st' v := by
  obtain ⟨slot, s, hslot, -, rfl⟩ := putTombstone_eq_some hput
  exact .relink hd (slot_not_mem hwf hd (findSlotnode_mem hslot) hv) ..

theorem vfsCreate_dirKept {parent : VPtr} (hv : v ≠ parent) (name : Name) (epoch : Int) :
    DirKept st (vfsCreate st parent name epoch).2 v := by
  obtain ⟨e, hs⟩ | ⟨d, -, -, -, -, -, hs⟩ := vfsCreate_call st parent name epoch
  · rw [hs]
    exact .refl st v
  · rw [hs]
    exact .addNode hwf hv ..

theorem vfsMkdir_dirKept {parent : VPtr} (hv : v ≠ parent) (name : Name) (epoch : Int) :
    DirKept st (vfsMkdir st parent name epoch).2 v := by
  obtain ⟨e, hs⟩ | ⟨d, -, -, -, hs⟩ := vfsMkdir_call st parent name epoch
  · rw [hs]
    exact .refl st v
  · rw [hs]
    exact .addNode hwf hv ..

theorem vfsDelete_dirKept {parent : VPtr} (hv : v ≠ parent) (name : Name) (epoch : Int) :
    DirKept st (vfsDelete st parent name epoch).2 v := by
  obtain ⟨e, hs⟩ | ⟨d, childId, child, vp, st', entries, -, -, hd, hput, hs⟩ := vfsDelete_call st parent name epoch
  · rw [hs]
    exact .refl st v
  · rw [hs]
    exact (DirKept.putTombstone hwf hd hv hput).trans (.bin entries)

theorem vfsRmdir_dirKept {parent : VPtr} (hv : v ≠ parent) (name : Name) (epoch : Int) :
    DirKept st (vfsRmdir st parent name epoch).2 v := by
  obtain ⟨e, hs⟩ | ⟨d, childId, child, vp, st', -, -, hd, hput, hs⟩ := vfsRmdir_call st parent name epoch
  · rw [hs]
    exact .refl st v
  · rw [hs]
    exact .putTombstone hwf hd hv hput

theorem vfsRename_dirKept {srcParent dstParent : VPtr} (hsrcv : v ≠ srcParent) (hdstv : v ≠ dstParent)
    (src dst : Name) (epoch : Int) : DirKept st (vfsRename st srcParent src dstParent dst epoch).2 v := by
  obtain ⟨e, hs⟩ | ⟨dSrc, dDst, childId, child, -, -, hsrc, hdst, -, hmove⟩ :=
    vfsRename_call st srcParent src dstParent dst epoch
  · rw [hs]
    exact .refl st v
  have hinsert : DirKept st (insertEntry st dstParent dDst childId child dst epoch) v :=
    .insertEntry hdstv (fun d hd => hwf.fresh_not_mem hd (by lia)) ..
  obtain ⟨-, st', entries, hwithin, hs⟩ | ⟨-, vp, st', entries, hacross, hs⟩ | ⟨-, -, hs⟩ := hmove
  · rw [hs]
    obtain ⟨slot, s, hslot, -, rfl⟩ := renameWithin_eq_some hwithin
    exact (DirKept.relink hsrc (slot_not_mem hwf hsrc (findSlotnode_mem hslot) hsrcv) ..).trans (.bin entries)
  · rw [hs]
    obtain ⟨slot, s, hslot, -, rfl⟩ := renameAcross_eq_some hacross
    refine (hinsert.trans (DirKept.prependEntry (fun d hd => ?_) ..)).trans (.bin entries)
    refine slot_not_mem hwf hsrc (findSlotnode_mem hslot) hsrcv d ?_
    rwa [show (insertEntry st dstParent dDst childId child dst epoch).nodes v = st.nodes v from
      Function.update_of_ne hdstv ..] at hd
  · rw [hs]
    exact hinsert

end Operations

/-! ## Names -/

/-- The names that `vfs_readdir` gives. -/
def listedNames (st : State) (dir : VPtr) (epoch : Int) : Option (List Name) :=
  (vfsReaddir st dir epoch).toOption.map (List.map Dirent.name)

theorem listSlot_name (st : State) (R : Int) (slot : VPtr) :
    (listSlot st R slot).map Dirent.name = (visibleEntry st R slot).bind DirContent.name := by
  rw [listSlot]
  cases visibleEntry st R slot with
  | none => rfl
  | some dc => cases hname : dc.name <;> simp [hname]

theorem listedNames_dir {d : DirNode} (hd : st.nodes v = some (.dir d)) (epoch : Int) :
    listedNames st v epoch = some (d.slotList.filterMap fun slot =>
      (visibleEntry st (resolve st.mapperTable epoch) slot).bind DirContent.name) := by
  simp only [listedNames, vfsReaddir, hd, Except.toOption, Option.map_some, List.map_filterMap, listSlot_name]

theorem DirKept.names (h : DirKept st st' v) {d : DirNode} (hd : st.nodes v = some (.dir d)) (epoch : Int) :
    listedNames st' v epoch = listedNames st v epoch := by
  obtain ⟨d', hd', hlist, hslots⟩ := h.dir d hd
  rw [listedNames_dir hd, listedNames_dir hd', hlist, h.table]
  refine congrArg some (List.filterMap_congr fun slot hslot => ?_)
  rw [visibleEntry, visibleEntry, hslots slot hslot, h.table]

/-! ## Operations that fail -/

structure FailsClean {α : Type} (st : State) (r : Except Err α × State) : Prop where
  volume : ∀ e, r.1 = .error e → r.2 = st

theorem FailsClean.error {α : Type} (st : State) (e : Err) : FailsClean st ((.error e, st) : Except Err α × State) :=
  ⟨fun _ _ => rfl⟩

theorem FailsClean.ok {α : Type} (a : α) : FailsClean st (.ok a, st') := ⟨nofun⟩

theorem vfsCreate_failsClean (st : State) (parent : VPtr) (name : Name) (epoch : Int) :
    FailsClean st (vfsCreate st parent name epoch) := by
  obtain ⟨e, hs⟩ | ⟨d, -, -, -, -, -, hs⟩ := vfsCreate_call st parent name epoch
  · exact hs ▸ .error st e
  · exact hs ▸ .ok _

theorem vfsMkdir_failsClean (st : State) (parent : VPtr) (name : Name) (epoch : Int) :
    FailsClean st (vfsMkdir st parent name epoch) := by
  obtain ⟨e, hs⟩ | ⟨d, -, -, -, hs⟩ := vfsMkdir_call st parent name epoch
  · exact hs ▸ .error st e
  · exact hs ▸ .ok _

theorem vfsDelete_failsClean (st : State) (parent : VPtr) (name : Name) (epoch : Int) :
    FailsClean st (vfsDelete st parent name epoch) := by
  obtain ⟨e, hs⟩ | ⟨d, childId, child, vp, st', entries, -, -, -, -, hs⟩ := vfsDelete_call st parent name epoch
  · exact hs ▸ .error st e
  · exact hs ▸ .ok _

theorem vfsRmdir_failsClean (st : State) (parent : VPtr) (name : Name) (epoch : Int) :
    FailsClean st (vfsRmdir st parent name epoch) := by
  obtain ⟨e, hs⟩ | ⟨d, childId, child, vp, st', -, -, -, -, hs⟩ := vfsRmdir_call st parent name epoch
  · exact hs ▸ .error st e
  · exact hs ▸ .ok _

theorem vfsRename_failsClean (hwf : DirWf st) (hids : EntryIds st) (srcParent : VPtr) (src : Name)
    (dstParent : VPtr) (dst : Name) (epoch : Int) :
    FailsClean st (vfsRename st srcParent src dstParent dst epoch) := by
  obtain ⟨e, hs⟩ | ⟨dSrc, dDst, childId, child, -, -, hsrc, -, hfind, hmove⟩ :=
    vfsRename_call st srcParent src dstParent dst epoch
  · exact hs ▸ .error st e
  obtain ⟨-, st', entries, -, hs⟩ | ⟨-, vp, st', entries, -, hs⟩ | ⟨-, hnone, -⟩ := hmove
  · exact hs ▸ .ok _
  · exact hs ▸ .ok _
  · -- the second half cannot fail
    obtain ⟨slot, s, hslot, -⟩ := findSlotnode_isSome hwf hids hsrc hfind
    obtain ⟨hnot, -⟩ | ⟨slot', s', vp, -, -, hsome⟩ :=
      renameAcross_cases hwf hsrc dstParent dDst childId child dst epoch
    · simp [hslot] at hnot
    · simp [hnone] at hsome

/-- What a callback does to the volume: nothing if it fails, and nothing to the listings of other directories than
those it clears. -/
structure Touches {α : Type} (m : FuseVfsState) (parents : List VPtr) (r : Except Errno α × FuseVfsState) : Prop where
  epoch : r.2.epoch = m.epoch
  isStep : IsStep m.vfs r.2.vfs
  failed : ∀ e, r.1 = .error e → r.2.vfs = m.vfs
  others : ∀ v ∉ parents, DirKept m.vfs r.2.vfs v

theorem Touches.refused {α : Type} (m : FuseVfsState) (parents : List VPtr) (e : Errno) :
    Touches m parents ((.error e, m) : Except Errno α × FuseVfsState) :=
  ⟨rfl, .inl rfl, fun _ _ => rfl, fun v _ => .refl m.vfs v⟩

theorem Touches.of_op {α : Type} {m : FuseVfsState} {parents : List VPtr} {r : Except Err α × State}
    (hstep : IsStep m.vfs r.2) (hclean : FailsClean m.vfs r) (hothers : ∀ v ∉ parents, DirKept m.vfs r.2 v) :
    Touches m parents (r.1.mapError vfsErrorToErrno, { m with vfs := r.2 }) := by
  refine ⟨rfl, hstep, fun e he => ?_, hothers⟩
  cases hr : r.1 with
  | ok a =>
    rw [hr] at he
    cases he
  | error e' => exact hclean.volume e' hr

theorem atParent_touches {α : Type} {m : FuseVfsState} {op : State → VPtr → Name → Int → Except Err α × State}
    (hstep : ∀ parent name, IsStep m.vfs (op m.vfs parent name m.vfs.currentEpoch).2)
    (hclean : ∀ parent name, FailsClean m.vfs (op m.vfs parent name m.vfs.currentEpoch))
    (hothers : ∀ parent name v, v ≠ parent → DirKept m.vfs (op m.vfs parent name m.vfs.currentEpoch).2 v)
    (path : Name) : Touches m (parentVps m path) (atParent op m path) := by
  rw [atParent]
  split
  · exact .refused m _ _
  split
  · exact .refused m _ _
  · rename_i parent name hparent
    have hvps : parentVps m path = [parent] := by simp only [parentVps, hparent]
    rw [hvps]
    refine .of_op (hstep parent name) (hclean parent name) fun v hv => ?_
    exact hothers parent name v fun heq => hv (heq ▸ List.mem_singleton_self v)

theorem rename_touches {m : FuseVfsState} (hwf : DirWf m.vfs) (hids : EntryIds m.vfs) (src dst : Name) :
    Touches m (renameVps m src dst) (fuseVfsRename m src dst) := by
  rw [fuseVfsRename]
  split
  · exact .refused m _ _
  split
  · rename_i srcParent srcName dstParent dstName hsrc hdst
    have hvps : renameVps m src dst = [srcParent, dstParent] := by simp only [renameVps, hsrc, hdst]
    have hstep : IsStep m.vfs (vfsRename m.vfs srcParent srcName dstParent dstName m.vfs.currentEpoch).2 :=
      .inr ⟨.rename srcParent srcName dstParent dstName m.vfs.currentEpoch, .inl rfl, rfl⟩
    rw [hvps]
    refine .of_op hstep (vfsRename_failsClean hwf hids ..) fun v hv => ?_
    rw [List.mem_cons, List.mem_singleton, not_or] at hv
    exact vfsRename_dirKept hwf hv.1 hv.2 ..
  · exact .refused m _ _

/-! ## The invariant of the cache -/

/-- No directory is in two slots, and every slot holds the names that its directory has now. -/
structure FusedirCache.Current (c : FusedirCache) (names : VPtr → Option (List Name)) : Prop where
  dirs : ∀ i j, (c.slots i).Used → (c.slots j).Used → (c.slots i).dirVp = (c.slots j).dirVp → i = j
  fresh : ∀ i entries, (c.slots i).entries = some entries →
    names (c.slots i).dirVp = some (entries.map Dirent.name)

section Cache

variable {c c' : FusedirCache} {names names' : VPtr → Option (List Name)}

theorem used_of_entries {s : FusedirCacheSlot} {entries : List Dirent} (h : s.entries = some entries) : s.Used :=
  Option.isSome_iff_exists.2 ⟨entries, h⟩

theorem current_init (names : VPtr → Option (List Name)) : fusedirCacheInit.Current names :=
  ⟨fun _ _ hi => absurd hi not_used_clearSlot, fun _ _ hi => absurd (used_of_entries hi) not_used_clearSlot⟩

theorem FusedirCache.Current.fewer (h : c.Current names) (hfewer : c.Fewer c') : c'.Current names := by
  refine ⟨fun i j hi hj heq => ?_, fun i entries hentries => ?_⟩
  · have hsi := hfewer.used hi
    have hsj := hfewer.used hj
    rw [hsi] at hi heq
    rw [hsj] at hj heq
    exact h.dirs i j hi hj heq
  · have hslot := hfewer.used (used_of_entries hentries)
    rw [hslot] at hentries ⊢
    exact h.fresh i entries hentries

theorem FusedirCache.Current.setSlot (h : c.Current names) {i : Fin fusedirCacheSize} {s : FusedirCacheSlot}
    (hdir : s.Used → ∀ j, j ≠ i → (c.slots j).Used → (c.slots j).dirVp ≠ s.dirVp)
    (hfresh : ∀ entries, s.entries = some entries → names s.dirVp = some (entries.map Dirent.name)) :
    (c.setSlot i s).Current names := by
  refine ⟨fun a b ha hb heq => ?_, fun a entries hentries => ?_⟩
  · by_cases hai : a = i <;> by_cases hbi : b = i
    · rw [hai, hbi]
    · rw [hai, setSlot_self] at ha heq
      rw [setSlot_of_ne c hbi] at hb heq
      exact absurd heq.symm (hdir ha b hbi hb)
    · rw [hbi, setSlot_self] at hb heq
      rw [setSlot_of_ne c hai] at ha heq
      exact absurd heq (hdir hb a hai ha)
    · rw [setSlot_of_ne c hai] at ha heq
      rw [setSlot_of_ne c hbi] at hb heq
      exact h.dirs a b ha hb heq
  · by_cases hai : a = i
    · rw [hai, setSlot_self] at hentries ⊢
      exact hfresh entries hentries
    · rw [setSlot_of_ne c hai] at hentries ⊢
      exact h.fresh a entries hentries

theorem invalidateVp_fewer (c : FusedirCache) (vp : VPtr) : c.Fewer (fusedirCacheInvalidateVp c vp) := by
  rw [fusedirCacheInvalidateVp]
  split
  · exact .setSlot c _ not_used_clearSlot
  · exact .refl c

theorem FusedirCache.Current.invalidateVp (h : c.Current names) (vp : VPtr) (i : Fin fusedirCacheSize)
    (hi : ((fusedirCacheInvalidateVp c vp).slots i).Used) :
    ((fusedirCacheInvalidateVp c vp).slots i).dirVp ≠ vp := by
  intro hdir
  have hslot := (invalidateVp_fewer c vp).used hi
  rw [hslot] at hdir
  have hused : (c.slots i).Used := hslot ▸ hi
  rw [fusedirCacheInvalidateVp] at hi
  split at hi
  · rename_i j hfind
    have hj := findSlot_eq_some hfind
    rw [Bool.and_eq_true, beq_iff_eq] at hj
    rw [h.dirs i j hused hj.2 (hdir.trans hj.1.symm), setSlot_self] at hi
    exact not_used_clearSlot hi
  · rename_i hfind
    exact findSlot_eq_none hfind i (by rw [Bool.and_eq_true, beq_iff_eq]; exact ⟨hdir, hused⟩)

theorem FusedirCache.Current.invalidate_all (parents : List VPtr) (h : c.Current names) :
    c.Fewer (parents.foldl fusedirCacheInvalidateVp c) ∧
      ∀ i, ((parents.foldl fusedirCacheInvalidateVp c).slots i).Used →
        ((parents.foldl fusedirCacheInvalidateVp c).slots i).dirVp ∉ parents := by
  induction parents generalizing c with
  | nil => exact ⟨.refl c, fun _ _ => List.not_mem_nil⟩
  | cons vp parents ih =>
    have hfirst := invalidateVp_fewer c vp
    obtain ⟨hfewer, hgone⟩ := ih (h.fewer hfirst)
    refine ⟨hfirst.trans hfewer, fun i hi hmem => ?_⟩
    obtain heq | hmem := List.mem_cons.1 hmem
    · have hslot := hfewer.used hi
      exact h.invalidateVp vp i (hslot ▸ hi) (hslot ▸ heq)
    · exact hgone i hi hmem

theorem GetStep.current {pathHash : UInt64} {fh dirVp : VPtr} {listing : Except Err (List Dirent)}
    {result : Except Err (List Dirent) × FusedirCache} (hstep : GetStep c pathHash fh dirVp listing result)
    (h : c.Current names) (hnames : ∀ l, listing = .ok l → names dirVp = some (l.map Dirent.name))
    (hkey : ∀ i, (c.slots i).Used → (c.slots i).dirVp = dirVp → (c.slots i).hasKey pathHash fh = true) :
    result.2.Current names ∧ ∀ l, result.1 = .ok l → names dirVp = some (l.map Dirent.name) := by
  cases hstep with
  | hit i entries counter hkey' hdir hentries =>
    have hset : (c.setSlot i { c.slots i with lastUsed := counter }).Current names := by
      refine h.setSlot (fun hi j hji hj heq => hji (h.dirs j i hj hi heq)) ?_
      exact h.fresh i
    refine ⟨⟨hset.dirs, hset.fresh⟩, fun l hl => ?_⟩
    cases hl
    rw [← hdir]
    exact h.fresh i entries hentries
  | built c' i l hlisting hmiss hfewer hfree hnone =>
    refine ⟨(h.fewer hfewer).setSlot (fun _ j _ hj hdir => ?_) (fun entries hentries => ?_), fun l' hl' => ?_⟩
    · -- the directory would be under another key
      have hslot := hfewer.used hj
      rw [hslot] at hj hdir
      exact hnone j (hslot ▸ hkey j hj hdir)
    · rw [entries_builtSlot (used_of_entries hentries)] at hentries
      cases hentries
      exact hnames l hlisting
    · cases hl'
      exact hnames l hlisting
  | failed c' e hlisting hmiss hfewer => exact ⟨h.fewer hfewer, nofun⟩

end Cache

theorem listedNames_eq_some {epoch : Int} {names : List Name} :
    listedNames st v epoch = some names ↔ ∃ l, vfsReaddir st v epoch = .ok l ∧ l.map Dirent.name = names := by
  rw [listedNames]
  cases vfsReaddir st v epoch <;> simp [Except.toOption]

theorem listedNames_isDir {epoch : Int} {names : List Name} (h : listedNames st v epoch = some names) :
    ∃ d, st.nodes v = some (.dir d) := by
  rw [listedNames, vfsReaddir] at h
  split at h
  · rename_i d hd
    exact ⟨d, hd⟩
  · cases h

theorem IsStep.entryIds (h : IsStep st st') (hids : EntryIds st) : EntryIds st' := by
  obtain rfl | ⟨op, -, rfl⟩ := h
  · exact hids
  · exact step_entryIds hids op

def FuseVfsState.namesNow (m : FuseVfsState) (dir : VPtr) : Option (List Name) := listedNames m.vfs dir m.epoch

structure ListingInv (d : FuseDirMount) : Prop where
  wf : Wf d.mount.vfs
  root : isDir d.mount.vfs d.mount.vfs.root = true
  ids : EntryIds d.mount.vfs
  keys : d.dirCache.KeysUnique
  current : d.dirCache.Current d.mount.namesNow

variable {d : FuseDirMount}

theorem ListingInv.callback {α : Type} (h : ListingInv d) {parents : List VPtr}
    {callback : FuseVfsState → Except Errno α × FuseVfsState} (htouches : Touches d.mount parents (callback d.mount)) :
    ListingInv (withInvalidation callback parents d).2 := by
  obtain ⟨hwf, hroot⟩ := htouches.isStep.wf h.wf h.root
  have hids := htouches.isStep.entryIds h.ids
  rw [withInvalidation]
  dsimp only
  split
  · obtain ⟨hfewer, hgone⟩ := h.current.invalidate_all parents
    have hleft := h.current.fewer hfewer
    refine ⟨hwf, hroot, hids, h.keys.fewer hfewer, hleft.dirs, fun i entries hentries => ?_⟩
    have hold := hleft.fresh i entries hentries
    obtain ⟨dir, hdir⟩ := listedNames_isDir hold
    have hkept := htouches.others _ (hgone i (used_of_entries hentries))
    rw [FuseVfsState.namesNow, htouches.epoch, hkept.names hdir]
    exact hold
  · rename_i e he
    have hsame : (callback d.mount).2.namesNow = d.mount.namesNow := by
      funext v
      rw [FuseVfsState.namesNow, htouches.failed e he, htouches.epoch, FuseVfsState.namesNow]
    exact ⟨hwf, hroot, hids, h.keys, hsame ▸ h.current⟩

theorem ListingInv.lookup (h : ListingInv d) {path : Name} {fh : VPtr} (hkey : UnderOneKey d (.readdir path fh)) :
    (cachedListing d path fh).2.dirCache.Current d.mount.namesNow ∧
      ∀ l, (cachedListing d path fh).1 = .ok l →
        d.mount.namesNow (readdirVp d.mount path fh) = some (l.map Dirent.name) :=
  (cachedListing_step h.keys path fh).current h.current (fun l hl => listedNames_eq_some.2 ⟨l, hl, rfl⟩) hkey.2

theorem ListingInv.readdir (h : ListingInv d) {path : Name} {fh : VPtr} (hkey : UnderOneKey d (.readdir path fh)) :
    ListingInv (cachedListing d path fh).2 :=
  ⟨h.wf, h.root, h.ids, (cachedListing_step h.keys path fh).keysUnique h.keys (lookupHash_one path fh),
    (h.lookup hkey).1⟩

theorem ListingInv.step (h : ListingInv d) {call : DirCall} (hkey : UnderOneKey d call) :
    ListingInv (dirStep d call) := by
  cases call with
  | opendir path => exact h
  | readdir path fh => exact h.readdir hkey
  | create path =>
    exact h.callback (atParent_touches (fun parent name => .inr ⟨.create parent name _, .inl rfl, rfl⟩)
      (fun _ _ => vfsCreate_failsClean ..) (fun _ _ _ hv => vfsCreate_dirKept h.wf.dir hv ..) path)
  | unlink path =>
    exact h.callback (atParent_touches (fun parent name => .inr ⟨.delete parent name _, .inl rfl, rfl⟩)
      (fun _ _ => vfsDelete_failsClean ..) (fun _ _ _ hv => vfsDelete_dirKept h.wf.dir hv ..) path)
  | mkdir path =>
    exact h.callback (atParent_touches (fun parent name => .inr ⟨.mkdir parent name _, .inl rfl, rfl⟩)
      (fun _ _ => vfsMkdir_failsClean ..) (fun _ _ _ hv => vfsMkdir_dirKept h.wf.dir hv ..) path)
  | rmdir path =>
    exact h.callback (atParent_touches (fun parent name => .inr ⟨.rmdir parent name _, .inl rfl, rfl⟩)
      (fun _ _ => vfsRmdir_failsClean ..) (fun _ _ _ hv => vfsRmdir_dirKept h.wf.dir hv ..) path)
  | rename src dst => exact h.callback (rename_touches h.wf.dir h.ids src dst)

/-! ## What is listed -/

theorem denoted_eq {path : Name} {fh : VPtr} (hkey : UnderOneKey d (.readdir path fh)) :
    denoted d.mount path fh = .ok (readdirVp d.mount path fh) := by
  rw [denoted, readdirVp]
  by_cases hfh : fh = 0
  · rw [if_neg (not_not.2 hfh), if_neg (not_not.2 hfh)]
    cases hroot : isRootPath path with
    | true =>
      have hpath : path = [] ∨ path = [slash] := by simpa [isRootPath] using hroot
      rw [if_pos rfl, if_neg (not_not.2 rfl), resolveFullPath, if_pos hpath]
    | false =>
      obtain ⟨hhash, hfound⟩ := hkey.1 hfh hroot
      rw [if_neg Bool.false_ne_true, if_pos hhash]
      cases hres : resolveFullPath d.mount.vfs d.mount.epoch path with
      | ok vp => rfl
      | error e =>
        rw [hres] at hfound
        cases hfound
  · rw [if_pos hfh, if_pos hfh]

theorem ListingInv.lists (h : ListingInv d) {call : DirCall} (hkey : UnderOneKey d call) : ListsCurrent d call := by
  cases call with
  | readdir path fh =>
    intro σ filler buf
    rw [denoted_eq hkey]
    intro f hf hnone
    rw [fuseVfsReaddir] at hf
    cases hanswer : (cachedListing d path fh).1 with
    | error e =>
      rw [hanswer] at hf
      cases hf
    | ok entries =>
      rw [hanswer] at hf
      cases hf
      obtain ⟨l, hl, hsame⟩ := listedNames_eq_some.1 ((h.lookup hkey).2 entries hanswer)
      exact ⟨l, hl, by rw [fillFrom_all hnone, hsame]⟩
  | _ => trivial

/-- A volume is mounted at any epoch, and directories are listed and changed on it. As long as every path that is
listed is found and no directory is listed under a second key while a slot holds it under a first, every listing
is that of the volume. -/
theorem fuse_listing_current {pageSize segmentSize : Nat} (hp : 0 < pageSize) (hs : 0 < segmentSize)
    (ops : List Op) (hops : Run.AllSteps SphereVFS.step ValidOp (bootstrap pageSize segmentSize) ops)
    (opts : FuseVfsOpts) (calls : List DirCall)
    (hcalls : Run.AllSteps dirStep UnderOneKey
      ⟨fuseVfsInit (run (bootstrap pageSize segmentSize) ops) opts, fusedirCacheInit⟩ calls) :
    Run.AllSteps dirStep ListsCurrent
      ⟨fuseVfsInit (run (bootstrap pageSize segmentSize) ops) opts, fusedirCacheInit⟩ calls := by
  obtain ⟨hwf, hroot⟩ := reachable_root hp hs hops
  have hinit : ListingInv ⟨fuseVfsInit (run (bootstrap pageSize segmentSize) ops) opts, fusedirCacheInit⟩ :=
    ⟨remount_wf hwf, hroot, (run_entryIds pageSize segmentSize ops).of_slots rfl, keysUnique_init, current_init _⟩
  revert hinit hcalls
  generalize (⟨fuseVfsInit (run (bootstrap pageSize segmentSize) ops) opts, fusedirCacheInit⟩ : FuseDirMount) = d
  intro hcalls hinit
  induction calls generalizing d with
  | nil => trivial
  | cons call calls ih => exact ⟨hinit.lists hcalls.1, ih _ hcalls.2 (hinit.step hcalls.1)⟩

instance FusedirCacheSlot.Used.decidable (s : FusedirCacheSlot) : Decidable s.Used :=
  inferInstanceAs (Decidable (_ = true))

instance UnderOneKey.decidable (d : FuseDirMount) : (call : DirCall) → Decidable (UnderOneKey d call)
  | .readdir path fh => inferInstanceAs (Decidable (
      (fh = 0 → isRootPath path = false → fusedirHashPath path ≠ 0 ∧
        (resolveFullPath d.mount.vfs d.mount.epoch path).isOk = true) ∧
      ∀ i, (d.dirCache.slots i).Used → (d.dirCache.slots i).dirVp = readdirVp d.mount path fh →
        (d.dirCache.slots i).hasKey (lookupHash path fh) fh = true))
  | .opendir _ => isTrue trivial
  | .create _ => isTrue trivial
  | .unlink _ => isTrue trivial
  | .mkdir _ => isTrue trivial
  | .rmdir _ => isTrue trivial
  | .rename _ _ => isTrue trivial

theorem fuse_listing_current_two_directories :
    Run.AllSteps dirStep ListsCurrent ⟨fuseVfsInit (bootstrap 8192 1024) ⟨0, false⟩, fusedirCacheInit⟩
      [.mkdir (ascii "/d"), .readdir [slash] 0, .opendir (ascii "/d"), .readdir [] 2, .create (ascii "/d/x"),
        .readdir [] 2, .rename (ascii "/d/x") (ascii "/x"), .readdir [slash] 0, .readdir [] 2] :=
  fuse_listing_current (by decide) (by decide) [] trivial ⟨0, false⟩ _ (by decide +kernel)

def acceptAll : Filler Unit := fun _ _ _ => (false, ())

/-- The root is listed by its path and by its handle, then a file is created: the handle still lists the old
names. And a path that is not there is listed as the root. -/
theorem second_key_lists_stale :
    let new : FuseDirMount := ⟨fuseVfsInit (bootstrap 8192 1024) ⟨0, false⟩, fusedirCacheInit⟩
    let d := [DirCall.create (ascii "/a"), .opendir [slash], .readdir [slash] 0, .readdir [] 1,
      .create (ascii "/b")].foldl dirStep new
    fuseVfsOpendir new.mount [slash] = .ok 1 ∧ ¬ ListsCurrent d (.readdir [] 1) ∧
      ¬ ListsCurrent new (.readdir (ascii "/b") 0) := by
  intro new d
  refine ⟨by decide +kernel, fun h => ?_, fun h => ?_⟩
  · have hlist : vfsReaddir d.mount.vfs 1 d.mount.epoch =
        .ok [⟨5, 2, false, ascii "b"⟩, ⟨2, 1, false, ascii "a"⟩] := by decide +kernel
    obtain ⟨l, hl, hnames⟩ := h Unit acceptAll () ⟨(), [(ascii ".", 1), (ascii "..", 2), (ascii "a", 3)], none⟩
      (by decide +kernel) rfl
    rw [hlist] at hl
    cases hl
    revert hnames
    decide +kernel
  · have hmissing : denoted new.mount (ascii "/b") 0 = .error .notFound := by decide +kernel
    have hfails := h Unit acceptAll ()
    rw [hmissing] at hfails
    obtain ⟨e, he⟩ := hfails
    have hok : (fuseVfsReaddir acceptAll () new (ascii "/b") 0 0).1 =
        .ok ⟨(), [(ascii ".", 1), (ascii "..", 2)], none⟩ := by decide +kernel
    rw [hok] at he
    cases he

end SphereVFS
