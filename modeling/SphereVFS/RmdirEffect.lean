import SphereVFS.AddEffect
import SphereVFS.FileSteps

/-!
# SphereVFS.RmdirEffect

What `vfs_rmdir` does with a name, against what a reader at the epoch sees.

It finds its directory by a search of its own: the links of the name's index leaf, and under them the
newest entry with the name that was stored at or below the epoch, whether or not a reader at the epoch
would take it. The tombstone then goes on top of the first slot with the child's id.
-/

namespace SphereVFS

variable {st st' : State} {dir child : VPtr} {d : DirNode} {name : Name} {epoch : Int} {childId : Nat}

/-! ## The ids of the entries -/

structure EntryIds (st : State) : Prop where
  ids : ∀ v s, st.slots v = some s → ∀ dc ∈ s.chain, dc.childId = s.id

theorem EntryIds.of_slots (h : EntryIds st) (hslots : st'.slots = st.slots) : EntryIds st' :=
  ⟨hslots ▸ h.ids⟩

theorem EntryIds.findSlotnode (h : EntryIds st) {slot : VPtr} {s : SlotNode} (hmem : slot ∈ d.slotList)
    (hs : st.slots slot = some s) {dc : DirContent} (hdc : dc ∈ s.chain) :
    ∃ slot' s', dirchainFindSlotnode st d dc.childId = some slot' ∧ st.slots slot' = some s' := by
  have hsome : (dirchainFindSlotnode st d dc.childId).isSome :=
    List.find?_isSome.2 ⟨slot, hmem, by simp [hs, h.ids slot s hs dc hdc]⟩
  obtain ⟨slot', hslot'⟩ := Option.isSome_iff_exists.1 hsome
  cases hs' : st.slots slot' with
  | none => simpa [hs'] using List.find?_some hslot'
  | some s' => exact ⟨slot', s', hslot', hs'⟩

theorem findSlotnode_isSome (hwf : DirWf st) (hids : EntryIds st) (hd : st.nodes dir = some (.dir d))
    (hfind : dirchainFindChild st dir name epoch = .ok (child, childId)) :
    ∃ slot s, dirchainFindSlotnode st d childId = some slot ∧ st.slots slot = some s := by
  obtain ⟨d', slot, dc, hd', hslot, hvisible, -, -, rfl⟩ := findChild_ok hwf hfind
  obtain rfl : d = d' := by simpa [hd] using hd'
  rw [visibleEntry] at hvisible
  split at hvisible
  · exact hids.findSlotnode hslot ‹_› (mem_of_chainWalk hvisible)
  · cases hvisible

theorem EntryIds.insertEntry (h : EntryIds st) (dir : VPtr) (d : DirNode) (childId : Nat) (child : VPtr)
    (name : Name) (epoch : Int) : EntryIds (insertEntry st dir d childId child name epoch) := by
  refine ⟨fun v s hs dc hdc => ?_⟩
  obtain ⟨-, rfl⟩ | ⟨-, hs⟩ := update_some_iff.1 hs
  · obtain rfl := List.mem_singleton.1 hdc
    rfl
  · exact h.ids v s hs dc hdc

theorem DirMove.entryIds (h : DirMove st st') (hids : EntryIds st) : EntryIds st' := by
  cases h with
  | add parent d node name epoch hnew hd =>
    have hadd : EntryIds { st with
        nextVp := st.nextVp + 1
        nextNodeId := freshNodeId st
        nodes := Function.update st.nodes st.nextVp (some node) } := hids.of_slots rfl
    exact hadd.insertEntry ..
  | insert dir d childId child name epoch hd => exact hids.insertEntry ..
  | prepend slot s child name epoch hs =>
    refine ⟨fun v s' hs' dc hdc => ?_⟩
    obtain ⟨-, rfl⟩ | ⟨-, hs'⟩ := update_some_iff.1 hs'
    · obtain rfl | hdc := List.mem_cons.1 hdc
      · rfl
      · exact hids.ids slot s hs dc hdc
    · exact hids.ids v s' hs' dc hdc
  | reindex dir d ix hd hedit => exact hids.of_slots rfl
  | bin entries => exact hids.of_slots rfl

theorem step_entryIds (h : EntryIds st) (op : Op) : EntryIds (step st op) :=
  step_keeps DirMove.entryIds (fun hsame h => h.of_slots hsame.slots) h op

theorem run_entryIds (pageSize segmentSize : Nat) (ops : List Op) :
    EntryIds (run (bootstrap pageSize segmentSize) ops) :=
  run_keeps DirMove.entryIds (fun hsame h => h.of_slots hsame.slots) ⟨fun v s hs => by cases hs⟩ ops

/-! ## The search of rmdir -/

def Named (name : Name) (epoch : Int) (dc : DirContent) : Prop := dc.epoch ≤ epoch ∧ dc.name = some name

def NewestNamed (st : State) (slot : VPtr) (name : Name) (epoch : Int) (dc : DirContent) : Prop :=
  ∃ s newer older, st.slots slot = some s ∧ s.chain = newer ++ dc :: older ∧ Named name epoch dc ∧
    ∀ x ∈ newer, ¬ Named name epoch x

/-- The entry that stands in for the name: the newest one in the slot of the newest link of the
name's leaf that has any. -/
def StandsFor (st : State) (dir : VPtr) (name : Name) (epoch : Int) (dc : DirContent) : Prop :=
  ∃ d newer slot older, st.nodes dir = some (.dir d) ∧ d.index (leafOf name) = newer ++ slot :: older ∧
    NewestNamed st slot name epoch dc ∧ ∀ v ∈ newer, ∀ dc', ¬ NewestNamed st v name epoch dc'

def EmptyAt (st : State) (child : VPtr) (epoch : Int) : Prop := vfsReaddir st child epoch = .ok []

section Search

variable (hwf : Wf st) (he : Writable st epoch)
include hwf he

theorem rmdirEntry_eq_some {slot : VPtr} {r : VPtr × Nat} :
    rmdirEntry st name epoch slot = some r ↔
      ∃ dc, NewestNamed st slot name epoch dc ∧ r = (dc.childPtr, dc.childId) := by
  have hu := hwf.epoch.u32_issued he.issued
  have hnamed : ∀ dc : DirContent,
      (decide (dc.epoch ≤ u32 epoch) && dc.name == some name) = true ↔ Named name epoch dc := by
    intro dc
    rw [hu]
    simp [Named]
  cases hs : st.slots slot with
  | none =>
    simp only [rmdirEntry, hs, NewestNamed]
    constructor
    · exact nofun
    · rintro ⟨dc, ⟨s, newer, older, hs', -⟩, -⟩
      cases hs'
  | some s =>
    simp only [rmdirEntry, hs, Option.map_eq_some_iff, List.find?_eq_some_iff_append]
    constructor
    · rintro ⟨dc, ⟨hdc, newer, older, hchain, hnewer⟩, rfl⟩
      refine ⟨dc, ⟨s, newer, older, hs, hchain, (hnamed dc).1 hdc, fun x hx => ?_⟩, rfl⟩
      exact fun h => by simpa [(hnamed x).2 h] using hnewer x hx
    · rintro ⟨dc, ⟨s', newer, older, hs', hchain, hdc, hnewer⟩, rfl⟩
      obtain rfl : s = s' := by simpa [hs] using hs'
      refine ⟨dc, ⟨(hnamed dc).2 hdc, newer, older, hchain, fun x hx => ?_⟩, rfl⟩
      have hx' := Bool.eq_false_iff.2 fun h => hnewer x hx ((hnamed x).1 h)
      rw [hx']
      rfl

theorem rmdirEntry_eq_none {slot : VPtr} :
    rmdirEntry st name epoch slot = none ↔ ∀ dc, ¬ NewestNamed st slot name epoch dc := by
  constructor
  · intro h dc hdc
    have := (rmdirEntry_eq_some hwf he).2 ⟨dc, hdc, rfl⟩
    simp [h] at this
  · intro h
    cases hr : rmdirEntry st name epoch slot with
    | none => rfl
    | some r =>
      obtain ⟨dc, hdc, -⟩ := (rmdirEntry_eq_some hwf he).1 hr
      exact absurd hdc (h dc)

variable (hd : st.nodes dir = some (.dir d))
include hd

theorem search_eq_some {r : VPtr × Nat} :
    (d.index (leafOf name)).findSome? (rmdirEntry st name epoch) = some r ↔
      ∃ dc, StandsFor st dir name epoch dc ∧ r = (dc.childPtr, dc.childId) := by
  rw [List.findSome?_eq_some_iff]
  constructor
  · rintro ⟨newer, slot, older, hlinks, hslot, hnewer⟩
    obtain ⟨dc, hdc, hr⟩ := (rmdirEntry_eq_some hwf he).1 hslot
    exact ⟨dc, ⟨d, newer, slot, older, hd, hlinks, hdc,
      fun v hv => (rmdirEntry_eq_none hwf he).1 (hnewer v hv)⟩, hr⟩
  · rintro ⟨dc, ⟨d', newer, slot, older, hd', hlinks, hdc, hnewer⟩, hr⟩
    obtain rfl : d = d' := by simpa [hd] using hd'
    exact ⟨newer, slot, older, hlinks, (rmdirEntry_eq_some hwf he).2 ⟨dc, hdc, hr⟩,
      fun v hv => (rmdirEntry_eq_none hwf he).2 (hnewer v hv)⟩

end Search

/-! ## Rmdir -/

/-- What rmdir is to do: remove a name that resolves to an empty directory, and report the absence of
one that does not resolve. -/
structure RemovesByView (st : State) (dir : VPtr) (name : Name) (epoch : Int) : Prop where
  removes : (vfsRmdir st dir name epoch).1 = .ok () ↔
    ∃ child, vfsOpen st dir name epoch = .ok child ∧ EmptyAt st child epoch
  missing : (vfsRmdir st dir name epoch).1 = .error .notFound ↔ ¬ Resolves st dir name epoch
  gone : (vfsRmdir st dir name epoch).1 = .ok () →
    vfsOpen (vfsRmdir st dir name epoch).2 dir name epoch = .error .notFound

/-- The entry that stands in for the name is as good as what a reader finds: there is one just when
some slot shows the name, its child is empty just when the child that is found is, and then the slot
that gets the tombstone is the one slot that shows the name. -/
structure RmdirSafe (st : State) (dir : VPtr) (name : Name) (epoch : Int) : Prop where
  name_ne : name ≠ []
  found : (∃ dc, StandsFor st dir name epoch dc) ↔ Shown st dir name epoch
  same : ∀ dc, StandsFor st dir name epoch dc → (EmptyAt st dc.childPtr epoch ↔
    ∃ child, vfsOpen st dir name epoch = .ok child ∧ EmptyAt st child epoch)
  only : ∀ d dc slot, st.nodes dir = some (.dir d) → StandsFor st dir name epoch dc →
    EmptyAt st dc.childPtr epoch → dirchainFindSlotnode st d dc.childId = some slot →
    ∀ slot' child, Lists st epoch dir slot' name child → slot' = slot

section Rmdir

variable (hwf : Wf st) (he : Writable st epoch)
include hwf he

theorem isEmptyAt_iff {c : DirNode} (hc : st.nodes child = some (.dir c)) :
    isEmptyAt st epoch c = true ↔ EmptyAt st child epoch := by
  simp only [EmptyAt, vfsReaddir, hc, hwf.epoch.resolve_writable he, Except.ok.injEq,
    List.filterMap_eq_nil_iff, isEmptyAt, List.all_eq_true]
  refine forall₂_congr fun v _ => ?_
  cases hdc : visibleEntry st epoch v with
  | none => simp [listSlot, hdc]
  | some dc => simp [listSlot, hdc]

variable (hd : st.nodes dir = some (.dir d))
include hd

omit he in
theorem standsFor_slot (hids : EntryIds st) (hzero : st.slots 0 = none) {dc : DirContent}
    (h : StandsFor st dir name epoch dc) :
    (st.nodes dc.childPtr).isSome ∧ ∃ slot s, dirchainFindSlotnode st d dc.childId = some slot ∧
      slot ∈ d.slotList ∧ st.slots slot = some s := by
  obtain ⟨d', newer, slot, older, hd', hlinks, ⟨s, l, l', hs, hchain, -⟩, -⟩ := h
  obtain rfl : d = d' := by simpa [hd] using hd'
  have hdc : dc ∈ s.chain := by simp [hchain]
  have hslot0 : slot ≠ 0 := by
    rintro rfl
    simp [hzero] at hs
  have hlink : slot ∈ d.index (leafOf name) := hlinks ▸ List.mem_append_right _ List.mem_cons_self
  have hmem := hwf.dir.index dir d hd _ slot hlink hslot0
  obtain ⟨slot', s', hslot', hs'⟩ := hids.findSlotnode hmem hs hdc
  exact ⟨hwf.dir.entry_child slot s hs dc hdc, slot', s', hslot', findSlotnode_mem hslot', hs'⟩

variable (hne : name ≠ [])
include hne

theorem vfsRmdir_missing (h : ∀ dc, ¬ StandsFor st dir name epoch dc) :
    vfsRmdir st dir name epoch = (.error .notFound, st) := by
  have hsearch : (d.index (leafOf name)).findSome? (rmdirEntry st name epoch) = none := by
    by_contra hsome
    obtain ⟨r, hr⟩ := Option.ne_none_iff_exists'.1 hsome
    obtain ⟨dc, hdc, -⟩ := (search_eq_some hwf he hd).1 hr
    exact h dc hdc
  simp only [vfsRmdir, hne, hwf.epoch.check_of_writable he, hd, hsearch, if_false, not_true_eq_false]

theorem vfsRmdir_refused {dc : DirContent} (h : StandsFor st dir name epoch dc)
    (hfull : ¬ EmptyAt st dc.childPtr epoch) :
    ∃ e, e ≠ .notFound ∧ vfsRmdir st dir name epoch = (.error e, st) := by
  have hsearch := (search_eq_some hwf he hd).2 ⟨dc, h, rfl⟩
  simp only [vfsRmdir, hne, hwf.epoch.check_of_writable he, hd, hsearch, if_false, not_true_eq_false]
  rcases hn : st.nodes dc.childPtr with _ | c | f
  · exact ⟨.isNotDir, by simp, rfl⟩
  · have hfalse := mt (isEmptyAt_iff hwf he hn).1 hfull
    exact ⟨.notEmpty, by simp, by simp [hfalse]⟩
  · exact ⟨.isNotDir, by simp, rfl⟩

theorem vfsRmdir_removed (hids : EntryIds st) (hzero : st.slots 0 = none) {dc : DirContent}
    (h : StandsFor st dir name epoch dc) (hempty : EmptyAt st dc.childPtr epoch) :
    ∃ slot s, dirchainFindSlotnode st d dc.childId = some slot ∧ slot ∈ d.slotList ∧
      st.slots slot = some s ∧ vfsRmdir st dir name epoch =
        (.ok (), deleted st dir d slot s dc.childId dc.childPtr name epoch st.bin) := by
  have hsearch := (search_eq_some hwf he hd).2 ⟨dc, h, rfl⟩
  obtain ⟨hchild, slot, s, hslot, hmem, hs⟩ := standsFor_slot hwf hd hids hzero h
  refine ⟨slot, s, hslot, hmem, hs, ?_⟩
  simp only [vfsRmdir, hne, hwf.epoch.check_of_writable he, hd, hsearch, if_false, not_true_eq_false,
    putTombstone, hslot, hs]
  rcases hn : st.nodes dc.childPtr with _ | c | f
  · simp [hn] at hchild
  · simp only [(isEmptyAt_iff hwf he hn).2 hempty, if_true]
    rfl
  · simp [EmptyAt, vfsReaddir, hn] at hempty

omit hne in
theorem standsFor_same {dc dc' : DirContent} (h : StandsFor st dir name epoch dc)
    (h' : StandsFor st dir name epoch dc') : dc'.childPtr = dc.childPtr ∧ dc'.childId = dc.childId := by
  have hr := (search_eq_some hwf he hd).2 ⟨dc, h, rfl⟩
  have hr' := (search_eq_some hwf he hd).2 ⟨dc', h', rfl⟩
  rw [hr] at hr'
  exact ⟨(Prod.mk.inj (Option.some.inj hr')).1.symm, (Prod.mk.inj (Option.some.inj hr')).2.symm⟩

theorem rmdirSafe_iff_of_stands {dc : DirContent} (h : StandsFor st dir name epoch dc) :
    RmdirSafe st dir name epoch ↔ Resolves st dir name epoch ∧
      (EmptyAt st dc.childPtr epoch ↔
        ∃ child, vfsOpen st dir name epoch = .ok child ∧ EmptyAt st child epoch) ∧
      (EmptyAt st dc.childPtr epoch → ∀ slot, dirchainFindSlotnode st d dc.childId = some slot →
        ∀ slot' child, Lists st epoch dir slot' name child → slot' = slot) := by
  rw [resolves_iff_shown hwf he hd hne]
  constructor
  · intro hsafe
    exact ⟨hsafe.found.1 ⟨dc, h⟩, hsafe.same dc h,
      fun hempty slot hslot => hsafe.only d dc slot hd h hempty hslot⟩
  · rintro ⟨hshown, hsame, honly⟩
    refine ⟨hne, iff_of_true ⟨dc, h⟩ hshown, fun dc' h' => ?_, fun d' dc' slot hd' h' hempty hslot => ?_⟩
    · rw [(standsFor_same hwf he hd h h').1]
      exact hsame
    · obtain ⟨hptr, hid⟩ := standsFor_same hwf he hd h h'
      obtain rfl : d = d' := by simpa [hd] using hd'
      rw [hptr] at hempty
      rw [hid] at hslot
      exact honly hempty slot hslot

theorem removesByView_iff_of_stands (hids : EntryIds st) (hzero : st.slots 0 = none) {dc : DirContent}
    (h : StandsFor st dir name epoch dc) :
    RemovesByView st dir name epoch ↔ RmdirSafe st dir name epoch := by
  rw [rmdirSafe_iff_of_stands hwf he hd hne h]
  by_cases hempty : EmptyAt st dc.childPtr epoch
  · -- rmdir removes the entry's child
    obtain ⟨slot, s, hslot, hmem, hs, hrmdir⟩ := vfsRmdir_removed hwf he hd hne hids hzero h hempty
    have hchild := (standsFor_slot hwf hd hids hzero h).1
    have hgone : vfsOpen (deleted st dir d slot s dc.childId dc.childPtr name epoch st.bin) dir name epoch =
        .error .notFound ↔ ∀ slot' c, Lists st epoch dir slot' name c → slot' = slot :=
      deleted_open_iff hwf he rfl hd hmem hs hne hchild
    constructor
    · rintro ⟨hremoves, hmissing, hopen⟩
      rw [hrmdir] at hremoves hmissing hopen
      refine ⟨by_contra fun hno => ?_, iff_of_true hempty (hremoves.1 rfl), fun _ slot' hslot' => ?_⟩
      · cases hmissing.2 hno
      · obtain rfl : slot = slot' := by simpa [hslot] using hslot'
        exact hgone.1 (hopen rfl)
    · rintro ⟨hres, hsame, honly⟩
      refine ⟨?_, ?_, ?_⟩ <;> rw [hrmdir]
      · exact iff_of_true rfl (hsame.1 hempty)
      · exact iff_of_false nofun (not_not_intro hres)
      · exact fun _ => hgone.2 (honly hempty slot hslot)
  · -- rmdir reports something else
    obtain ⟨e, he', hrmdir⟩ := vfsRmdir_refused hwf he hd hne h hempty
    have hok : (vfsRmdir st dir name epoch).1 ≠ .ok () := by simp [hrmdir]
    have hmiss : (vfsRmdir st dir name epoch).1 ≠ .error .notFound := by simpa [hrmdir] using he'
    constructor
    · rintro ⟨hremoves, hmissing, -⟩
      refine ⟨by_contra fun hno => hmiss (hmissing.2 hno), ?_, fun hno => absurd hno hempty⟩
      exact iff_of_false hempty (mt hremoves.2 hok)
    · rintro ⟨hres, hsame, -⟩
      exact ⟨iff_of_false hok (mt hsame.2 hempty), iff_of_false hmiss (not_not_intro hres),
        fun h => absurd h hok⟩

theorem removesByView_iff_of_none (h : ∀ dc, ¬ StandsFor st dir name epoch dc) :
    RemovesByView st dir name epoch ↔ RmdirSafe st dir name epoch := by
  have hrmdir := vfsRmdir_missing hwf he hd hne h
  have hview := resolves_iff_shown hwf he hd hne
  constructor
  · rintro ⟨-, hmissing, -⟩
    have hno := hmissing.1 (by rw [hrmdir])
    refine ⟨hne, iff_of_false (fun ⟨dc, hdc⟩ => h dc hdc) (mt hview.2 hno), ?_, ?_⟩
    · exact fun dc hdc => absurd hdc (h dc)
    · exact fun _ dc _ _ hdc => absurd hdc (h dc)
  · intro hsafe
    have hno : ¬ Resolves st dir name epoch := fun hres =>
      (hsafe.found.2 (hview.1 hres)).elim fun dc hdc => h dc hdc
    refine ⟨iff_of_false ?_ ?_, iff_of_true ?_ hno, ?_⟩
    · simp [hrmdir]
    · rintro ⟨child, hopen, -⟩
      exact hno ⟨child, hopen⟩
    · rw [hrmdir]
    · simp [hrmdir]

end Rmdir

/-- **Rmdir removes exactly the empty directories.** In every volume reached by valid operations, at
every writable epoch and for every name, `vfs_rmdir` succeeds exactly on names that resolve to an
empty directory, reports exactly the names that do not resolve as missing, and leaves no name that it
removed, if and only if the name is not empty and the entry that its search takes for the name is as
good as what a reader finds. -/
theorem rmdir_by_view_iff {pageSize segmentSize : Nat} (hp : 0 < pageSize) (hs : 0 < segmentSize)
    (ops : List Op) (hrun : Run.AllSteps step ValidOp (bootstrap pageSize segmentSize) ops)
    {dir : VPtr} {d : DirNode} (hd : (run (bootstrap pageSize segmentSize) ops).nodes dir = some (.dir d))
    {epoch : Int} (he : Writable (run (bootstrap pageSize segmentSize) ops) epoch) (name : Name) :
    let st := run (bootstrap pageSize segmentSize) ops
    RemovesByView st dir name epoch ↔ RmdirSafe st dir name epoch := by
  have hwf := reachable_wf hp hs hrun
  have hzero := reachable_slot_zero hp hs hrun
  have hids := run_entryIds pageSize segmentSize ops
  generalize run (bootstrap pageSize segmentSize) ops = st at *
  by_cases hne : name = []
  · -- an empty name is an I/O error, not a missing name
    subst hne
    constructor
    · intro h
      have hno : ¬ Resolves st dir [] epoch := by
        rintro ⟨child, hopen⟩
        simp [vfsOpen, dirchainFindChild, Except.map] at hopen
      have := h.missing.2 hno
      simp [vfsRmdir] at this
    · exact fun h => absurd rfl h.name_ne
  · by_cases hstands : ∃ dc, StandsFor st dir name epoch dc
    · obtain ⟨dc, hdc⟩ := hstands
      exact removesByView_iff_of_stands hwf he hd hne hids hzero hdc
    · exact removesByView_iff_of_none hwf he hd hne fun dc hdc => hstands ⟨dc, hdc⟩

theorem rmdir_by_view_moved_dir :
    let st := run (bootstrap 8192 1024)
      [.create 1 [97] 0, .mkdir 1 [98] 0, .mkdir 1 [100] 0, .rename 1 [98] 8 [98] 0, .snapshot]
    RmdirSafe st 8 [98] 2 ∧ (vfsRmdir st 8 [98] 2).1 = .ok () := by
  generalize hops : [Op.create 1 [97] 0, .mkdir 1 [98] 0, .mkdir 1 [100] 0, .rename 1 [98] 8 [98] 0,
    .snapshot] = ops
  have hrun : Run.AllSteps step ValidOp (bootstrap 8192 1024) ops ∧
      (run (bootstrap 8192 1024) ops).currentEpoch = 2 := by
    subst hops
    decide +kernel
  have hchecks : isDir (run (bootstrap 8192 1024) ops) 8 = true ∧
      vfsOpen (run (bootstrap 8192 1024) ops) 8 [98] 2 = .ok 5 ∧
      vfsReaddir (run (bootstrap 8192 1024) ops) 5 2 = .ok [] ∧
      (vfsRmdir (run (bootstrap 8192 1024) ops) 8 [98] 2).1 = .ok () ∧
      vfsOpen (vfsRmdir (run (bootstrap 8192 1024) ops) 8 [98] 2).2 8 [98] 2 = .error .notFound := by
    subst hops
    decide +kernel
  obtain ⟨hdir, hopen, hempty, hrmdir, hgone⟩ := hchecks
  obtain ⟨d, hd⟩ := isDir_iff.1 hdir
  refine ⟨(rmdir_by_view_iff (by decide) (by decide) ops hrun.1 hd (.inl hrun.2.symm) [98]).1
    ⟨iff_of_true hrmdir ⟨5, hopen, hempty⟩, iff_of_false ?_ (not_not_intro ⟨5, hopen⟩), fun _ => hgone⟩,
    hrmdir⟩
  rw [hrmdir]
  exact nofun

/-- A directory that was removed is removed a second time at the same epoch, and a directory that was
renamed on the head is not found under the name that a snapshot still shows. -/
theorem rmdir_searches_stored_entries :
    (let ops := [Op.mkdir 1 [97] 0, .rmdir 1 [97] 0]
     let st := run (bootstrap 8192 1024) ops
     Run.AllSteps step ValidOp (bootstrap 8192 1024) ops ∧ Writable st 0 ∧
       vfsOpen st 1 [97] 0 = .error .notFound ∧ (vfsRmdir st 1 [97] 0).1 = .ok ()) ∧
    (let ops := [Op.mkdir 1 [97] 0, .snapshot, .rename 1 [97] 1 [98] 2]
     let st := run (bootstrap 8192 1024) ops
     Run.AllSteps step ValidOp (bootstrap 8192 1024) ops ∧ Writable st 1 ∧
       vfsOpen st 1 [97] 1 = .ok 2 ∧ vfsReaddir st 2 1 = .ok [] ∧
       (vfsRmdir st 1 [97] 1).1 = .error .notFound) := by
  refine ⟨⟨by decide +kernel, .inl rfl, by decide +kernel, by decide +kernel⟩, by decide +kernel, ?_,
    by decide +kernel, by decide +kernel, by decide +kernel⟩
  exact .inr ⟨by decide, by decide, by decide +kernel, List.forall_mem_nil _⟩

end SphereVFS
