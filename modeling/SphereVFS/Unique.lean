import SphereVFS.Namespace

/-!
# SphereVFS.Unique

Listings without repetitions. `vfs_create` looks whether the name is visible at its epoch; the other
operations do not all look. When their callers do (no mkdir over a visible name, no rename onto a
visible name or through a stale slot, no commit of a snapshot whose links clash with those of the
head), no listing ever has a name or a child twice.
-/

namespace SphereVFS

variable {st st' : State} {epoch R : Int} {parent : VPtr} {name : Name}

def Distinct (L : Links.Rel VPtr VPtr Name) : Prop := Links.NameUnique L ∧ Links.ChildUnique L

/-! ## Conditions on the steps -/

def WrittenAt (st : State) (S : Int) (slot : VPtr) : Prop :=
  ∃ s, st.slots slot = some s ∧ ∃ dc ∈ s.chain, dc.epoch = S

/-- The conflict rule of the commit, for directories: no slot written at the snapshot was written at
a later head too, and no link made at the snapshot has a name or a child of a link that the head
shows elsewhere. -/
structure NoDirConflict (st : State) (S : Int) : Prop where
  slot : ∀ v s, st.slots v = some s → WrittenAt st S v → ∀ dc ∈ s.chain,
    ¬ AtLaterHead st S dc.epoch
  name : ∀ dir v v' n c c', WrittenAt st S v → ¬ WrittenAt st S v' → Lists st S dir v n c →
    ¬ Lists st st.currentEpoch dir v' n c'
  child : ∀ dir dir' v v' n n' c, WrittenAt st S v → ¬ WrittenAt st S v' → Lists st S dir v n c →
    ¬ Lists st st.currentEpoch dir' v' n' c

def KeepsDistinct (st : State) (op : Op) : Prop :=
  ValidOp st op ∧
    match op with
    | .mkdir parent name epoch => ∀ slot child, ¬ Lists st epoch parent slot name child
    | .rename srcParent src dstParent dst epoch =>
      ∀ child childId, dirchainFindChild st srcParent src epoch = .ok (child, childId) →
        ∃ slot, SlotFound st srcParent src epoch child childId slot ∧
          ∀ slot' child', Lists st epoch dstParent slot' dst child' → slot' = slot
    | .commit S => NoDirConflict st S
    | _ => True

/-! ## One step -/

theorem addNode_distinct (hwf : Wf st) (he : Writable st epoch) {d : DirNode} {node : Node}
    (hnew : IsNew node) (hd : st.nodes parent = some (.dir d)) (h : Distinct (Lists st epoch))
    (hname : ∀ slot child, ¬ Lists st epoch parent slot name child) :
    Distinct (Lists (addNode st parent d node name epoch).2 epoch) := by
  have hsub : ∀ dir v n c, Lists (addNode st parent d node name epoch).2 epoch dir v n c → _ :=
    lists_addNode hwf.epoch he hwf.dir hnew hd
  refine ⟨(h.1.put fun t c' _ ht => ?_).mono hsub, (h.2.put fun d' t n' _ ht => ?_).mono hsub⟩
  · exact absurd ht (hname t c')
  · -- the new node was listed nowhere
    have hsome := lists_child_isSome hwf.dir ht
    simp [hwf.dir.node_fresh st.nextVp (by lia)] at hsome

theorem Tombstoned.distinct (ht : Tombstoned st epoch st') (hwf : Wf st) (he : Writable st epoch)
    (h : Distinct (Lists st epoch)) : Distinct (Lists st' epoch) := by
  have hsub := ht.lists hwf.epoch he hwf.dir
  exact ⟨h.1.mono hsub, h.2.mono hsub⟩

theorem Renamed.distinct {srcParent dstParent child slot : VPtr} {src dst : Name} {childId : Nat}
    (hr : Renamed st srcParent dstParent src dst child childId epoch st') (hwf : Wf st)
    (he : Writable st epoch) (h : Distinct (Lists st epoch))
    (hfound : SlotFound st srcParent src epoch child childId slot)
    (hname : ∀ slot' child', Lists st epoch dstParent slot' dst child' → slot' = slot) :
    Distinct (Lists st' epoch) := by
  obtain ⟨d, hd, hfind, hl⟩ := hfound
  obtain ⟨slot', -, hsub⟩ := hr.lists hwf.epoch he hwf.dir (lists_child_isSome hwf.dir hl) hd hfind
  refine ⟨(h.1.put fun t c' hts ht => ?_).mono hsub, (h.2.put fun d' t n' hts ht => ?_).mono hsub⟩
  · exact absurd (hname t c' ht) hts
  · -- the child shows in the cleared slot and nowhere else
    exact absurd (h.2 _ _ _ _ _ _ _ ht hl) hts

/-- After a commit the head shows the slots written at the snapshot as the snapshot did, and the
others as before. -/
theorem Mapped.lists_head {S : Int} (hm : Mapped st S st.currentEpoch true st') (hwf : Wf st)
    (hslot : ∀ v s, st.slots v = some s → WrittenAt st S v → ∀ dc ∈ s.chain,
      ¬ AtLaterHead st S dc.epoch)
    (dir v : VPtr) (n : Name) (c : VPtr) (h : Lists st' st.currentEpoch dir v n c) :
    Links.merge (WrittenAt st S) (Lists st S) (Lists st st.currentEpoch) dir v n c := by
  obtain ⟨d, dc, hd, hmem, hdc, hname, hchild⟩ := h
  rw [hm.move.nodes] at hd
  obtain ⟨s, hs⟩ := Option.isSome_iff_exists.1 (hwf.dir.slot_some dir d hd v hmem)
  have hrange := hwf.dir.entry_epoch v s hs
  simp only [visibleEntry, hm.move.slots, hs] at hdc
  by_cases hw : WrittenAt st S v
  · refine .inl ⟨hw, d, dc, hd, hmem, ?_, hname, hchild⟩
    rw [hm.walk_written hwf hrange (hslot v s hs hw)] at hdc
    simpa only [visibleEntry, hs] using hdc
  · refine .inr ⟨hw, d, dc, hd, hmem, ?_, hname, hchild⟩
    rw [hm.walk_kept hwf hrange fun x hx heq => hw ⟨s, hs, x, hx, heq⟩] at hdc
    simpa only [visibleEntry, hs] using hdc

theorem commit_distinct {st1 : State} {S : Int} (hwf : Wf st) (hedits : FileEdits st st1)
    (hm : Mapped st1 S st1.currentEpoch true st') (hno : NoDirConflict st S)
    (hV : ∀ R, Writable st R → Distinct (Lists st R)) :
    Distinct (Lists st' st1.currentEpoch) := by
  have hkept := FileEdits.dirsKept hedits
  have hwf1 := hedits.wf hwf
  -- the scan leaves the links as they were
  have hlists : ∀ R dir v n c, Lists st1 R dir v n c → Lists st R dir v n c :=
    fun R _ _ _ _ => lists_of_frame (hkept.grow hwf.dir) (hkept.entries R)
  have hwritten : ∀ v, WrittenAt st1 S v ↔ WrittenAt st S v := by
    intro v
    rw [WrittenAt, WrittenAt, hkept.slots]
  have hsub := hm.lists_head hwf1 (by
    intro v s hs hw
    rw [hkept.slots] at hs
    simp only [AtLaterHead, hkept.table]
    exact hno.slot v s hs ((hwritten v).1 hw))
  have hS : Writable st S := .inr (by
    obtain ⟨hodd, hpos, hlt, hun⟩ := hm.active
    rw [hkept.epoch] at hlt
    rw [hkept.table] at hun
    exact ⟨hodd, hpos, hlt, hun⟩)
  have hdS := hV S hS
  have hdC : Distinct (Lists st st1.currentEpoch) := by
    rw [hkept.epoch]
    exact hV _ (.inl rfl)
  refine ⟨Links.NameUnique.mono (Links.NameUnique.merge (hdS.1.mono (hlists S))
    (hdC.1.mono (hlists _)) ?_) hsub, Links.ChildUnique.mono (Links.ChildUnique.merge
    (hdS.2.mono (hlists S)) (hdC.2.mono (hlists _)) ?_) hsub⟩
  · intro d s s' n c c' hs hs' hl hl'
    refine hno.name d s s' n c c' ((hwritten s).1 hs) (fun h => hs' ((hwritten s').2 h))
      (hlists _ _ _ _ _ hl) ?_
    rw [← hkept.epoch]
    exact hlists _ _ _ _ _ hl'
  · intro d d' s s' n n' c hs hs' hl hl'
    refine hno.child d d' s s' n n' c ((hwritten s).1 hs) (fun h => hs' ((hwritten s').2 h))
      (hlists _ _ _ _ _ hl) ?_
    rw [← hkept.epoch]
    exact hlists _ _ _ _ _ hl'

theorem distinct_step (hwf : Wf st) {op : Op} (hop : KeepsDistinct st op)
    (hV : ∀ R, Writable st R → Distinct (Lists st R)) :
    ∀ R, Writable (step st op) R → Distinct (Lists (step st op) R) := by
  obtain ⟨hvalid, hcond⟩ := hop
  refine views_step (fun L M hLM hM => ⟨hM.1.mono hLM, hM.2.mono hLM⟩) hwf hvalid hV ?_ ?_
  · intro E hdir hat hw
    have hres := hwf.epoch.resolve_writable hw
    cases op with
    | create parent name epoch =>
      cases hat
      obtain ⟨e, hs⟩ | ⟨d, e, hne, -, hd, hfind, hs⟩ := vfsCreate_call st parent name E
      · rw [step, hs]
        exact hV E hw
      · rw [step, hs]
        refine addNode_distinct hwf hw (.file _) hd (hV E hw) ?_
        rintro slot child ⟨d₀, dc, hd₀, hmem, hdc, hname, -⟩
        obtain rfl : d = d₀ := by simpa [hd] using hd₀
        exact findChild_error hd hfind hne slot hmem dc (by rwa [hres]) hname
    | mkdir parent name epoch =>
      cases hat
      obtain ⟨e, hs⟩ | ⟨d, -, -, hd, hs⟩ := vfsMkdir_call st parent name E
      · rw [step, hs]
        exact hV E hw
      · rw [step, hs]
        exact addNode_distinct hwf hw (.dir _) hd (hV E hw) hcond
    | delete parent name epoch =>
      cases hat
      obtain hs | ⟨-, ht⟩ := vfsDelete_cases hwf.dir parent name E
      · rw [step, hs]
        exact hV E hw
      · exact ht.distinct hwf hw (hV E hw)
    | rmdir parent name epoch =>
      cases hat
      obtain hs | ⟨-, ht⟩ := vfsRmdir_cases st parent name E
      · rw [step, hs]
        exact hV E hw
      · exact ht.distinct hwf hw (hV E hw)
    | rename srcParent src dstParent dst epoch =>
      cases hat
      obtain hs | ⟨child, childId, -, hfind, hr⟩ :=
        vfsRename_cases hwf.dir srcParent src dstParent dst E
      · rw [step, hs]
        exact hV E hw
      · obtain ⟨slot, hfound, hname⟩ := hcond child childId hfind
        exact hr.distinct hwf hw (hV E hw) hfound hname
    | _ => cases hdir
  · rintro S st1 rfl hedits hm
    exact commit_distinct hwf hedits hm hcond hV

/-! ## Runs -/

theorem distinct_run {pageSize segmentSize : Nat} (hp : 0 < pageSize) (hs : 0 < segmentSize)
    {ops : List Op} (h : Run.AllSteps step KeepsDistinct (bootstrap pageSize segmentSize) ops) :
    Wf (run (bootstrap pageSize segmentSize) ops) ∧
      ∀ R, Writable (run (bootstrap pageSize segmentSize) ops) R →
        Distinct (Lists (run (bootstrap pageSize segmentSize) ops) R) := by
  refine Run.invariant (fun st => Wf st ∧ ∀ R, Writable st R → Distinct (Lists st R))
    (fun st op hinv hop => ⟨step_wf hinv.1 hop.1, distinct_step hinv.1 hop hinv.2⟩)
    ⟨bootstrap_wf hp hs, fun R _ => ?_⟩ h
  exact ⟨fun _ _ _ _ _ _ hl => absurd hl bootstrap_lists,
    fun _ _ _ _ _ _ _ hl => absurd hl bootstrap_lists⟩

/-- No name and no child is listed twice at `epoch`. -/
def ListedOnce (entries : List Dirent) : Prop :=
  entries.Pairwise fun a b => a.name ≠ b.name ∧ a.vp ≠ b.vp

theorem readdir_listedOnce (hwf : Wf st) (he : Writable st epoch) (h : Distinct (Lists st epoch))
    {dir : VPtr} {entries : List Dirent} (hlist : vfsReaddir st dir epoch = .ok entries) :
    ListedOnce entries := by
  rw [vfsReaddir] at hlist
  split at hlist
  · rename_i d hd
    cases hlist
    rw [hwf.epoch.resolve_writable he, ListedOnce, List.pairwise_filterMap]
    refine (hwf.dir.slot_nodup dir d hd).imp_of_mem fun {v w} hv hw hne a ha b hb => ?_
    have hla := listSlot_lists hd hv ha
    have hlb := listSlot_lists hd hw hb
    constructor
    · intro heq
      rw [heq] at hla
      exact hne (h.1 _ _ _ _ _ _ hla hlb)
    · intro heq
      rw [heq] at hla
      exact hne (h.2 _ _ _ _ _ _ _ hla hlb)
  · cases hlist

/-- **Directory uniqueness.** In every volume reached by steps that keep names and children distinct,
each listing at the head or at an active snapshot has every name and every child at most once. -/
theorem readdir_unique {pageSize segmentSize : Nat} (hp : 0 < pageSize) (hs : 0 < segmentSize)
    (ops : List Op) (h : Run.AllSteps step KeepsDistinct (bootstrap pageSize segmentSize) ops)
    (dir : VPtr) (epoch : Int) (he : Writable (run (bootstrap pageSize segmentSize) ops) epoch)
    (entries : List Dirent)
    (hlist : vfsReaddir (run (bootstrap pageSize segmentSize) ops) dir epoch = .ok entries) :
    ListedOnce entries := by
  obtain ⟨hwf, hV⟩ := distinct_run hp hs h
  exact readdir_listedOnce hwf he (hV epoch he) hlist

theorem readdir_unique_two_heads :
    let st := run (bootstrap 8192 1024) [.mkdir 1 [97] 0, .snapshot, .create 1 [98] 2]
    vfsReaddir st 1 2 = .ok [⟨5, 2, false, [98]⟩, ⟨2, 1, true, [97]⟩] ∧
      ListedOnce [⟨5, 2, false, [98]⟩, ⟨2, 1, true, [97]⟩] := by
  refine ⟨rfl, readdir_unique (show 0 < 8192 by decide) (show 0 < 1024 by decide)
    [.mkdir 1 [97] 0, .snapshot, .create 1 [98] 2]
    ⟨⟨.inl rfl, fun _ _ => bootstrap_lists⟩, ⟨?_, trivial⟩, ⟨.inl rfl, trivial⟩, trivial⟩ 1 2
    (.inl rfl) _ rfl⟩
  show (0 : Int) + 2 < 2 ^ 31
  decide

/-- `vfs_mkdir` only looks for an entry stored at its own epoch: the name of a directory from head
`0` is free for it at head `2`, where both are then listed. -/
theorem mkdir_twice_lists_name_twice :
    Run.AllSteps step ValidOp (bootstrap 8192 1024) [.mkdir 1 [97] 0, .snapshot, .mkdir 1 [97] 2] ∧
      (vfsReaddir (run (bootstrap 8192 1024) [.mkdir 1 [97] 0, .snapshot, .mkdir 1 [97] 2]) 1
        2).toOption = some [⟨5, 2, true, [97]⟩, ⟨2, 1, true, [97]⟩] := by
  refine ⟨⟨.inl rfl, ?_, .inl rfl, trivial⟩, by decide +kernel⟩
  show (0 : Int) + 2 < 2 ^ 31
  decide

end SphereVFS
