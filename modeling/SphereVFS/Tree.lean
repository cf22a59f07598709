import SphereVFS.Namespace

/-!
# SphereVFS.Tree

The name space is a forest at every epoch: no directory is below itself, and a node is listed once.
`vfs_rename` checks neither that the destination is outside the directory it moves nor that the slot
it clears is the one that shows the child; where both hold, it moves a whole subtree.
-/

namespace SphereVFS

open Links

variable {st st' : State} {epoch R : Int} {parent : VPtr} {name : Name}

/-- No cycle, and one link to each child. -/
def Forest (L : Rel VPtr VPtr Name) : Prop := ChildUnique L ∧ Acyclic L

theorem Forest.mono {L M : Rel VPtr VPtr Name} (hLM : ∀ d s n c, L d s n c → M d s n c)
    (h : Forest M) : Forest L := ⟨h.1.mono hLM, h.2.mono hLM⟩

/-- A valid operation that keeps the name space a forest. Commits are not among them: they lay the
links of two epochs over each other. -/
def KeepsForest (st : State) (op : Op) : Prop :=
  ValidOp st op ∧
    match op with
    | .rename srcParent src dstParent _ epoch =>
      ∀ child childId, dirchainFindChild st srcParent src epoch = .ok (child, childId) →
        ∃ slot, SlotFound st srcParent src epoch child childId slot ∧
          (srcParent = dstParent ∨
            ¬ Relation.ReflTransGen (Edge (Lists st epoch)) child dstParent)
    | .commit _ => False
    | _ => True

/-! ## One step -/

theorem fresh_not_above (hwf : DirWf st) {dir : VPtr} (hdir : (st.nodes dir).isSome) :
    ¬ Relation.ReflTransGen (Edge (Lists st R)) st.nextVp dir := by
  intro h
  have hnone := hwf.node_fresh st.nextVp (by lia)
  obtain rfl | ⟨c, ⟨s, n, d, dc, hd, -⟩, -⟩ := Relation.ReflTransGen.cases_head h
  · simp [hnone] at hdir
  · rw [hnone] at hd
    cases hd

theorem addNode_forest (hwf : Wf st) (he : Writable st epoch) {d : DirNode} {node : Node}
    (hnew : IsNew node) (hd : st.nodes parent = some (.dir d)) (h : Forest (Lists st epoch)) :
    Forest (Lists (addNode st parent d node name epoch).2 epoch) := by
  have hsub : ∀ dir v n c, Lists (addNode st parent d node name epoch).2 epoch dir v n c → _ :=
    lists_addNode hwf.epoch he hwf.dir hnew hd
  refine ⟨(h.1.put fun d' t n' _ ht => ?_).mono hsub,
    (h.2.put (fresh_not_above hwf.dir (by simp [hd]))).mono hsub⟩
  have hsome := lists_child_isSome hwf.dir ht
  simp [hwf.dir.node_fresh st.nextVp (by lia)] at hsome

theorem Renamed.forest {srcParent dstParent child slot : VPtr} {src dst : Name} {childId : Nat}
    (hr : Renamed st srcParent dstParent src dst child childId epoch st') (hwf : Wf st)
    (he : Writable st epoch) (h : Forest (Lists st epoch))
    (hfound : SlotFound st srcParent src epoch child childId slot)
    (hbelow : srcParent = dstParent ∨
      ¬ Relation.ReflTransGen (Edge (Lists st epoch)) child dstParent) :
    Forest (Lists st' epoch) := by
  obtain ⟨d, hd, hfind, hl⟩ := hfound
  obtain ⟨slot', -, hsub⟩ := hr.lists hwf.epoch he hwf.dir (lists_child_isSome hwf.dir hl) hd hfind
  refine ⟨(h.1.put fun d' t n' hts ht => ?_).mono hsub, (h.2.put ?_).mono hsub⟩
  · exact absurd (h.1 _ _ _ _ _ _ _ ht hl) hts
  · obtain rfl | hbelow := hbelow
    · exact h.2.not_below ⟨slot, src, hl⟩
    · exact hbelow

theorem forest_step (hwf : Wf st) {op : Op} (hop : KeepsForest st op)
    (hV : ∀ R, Writable st R → Forest (Lists st R)) :
    ∀ R, Writable (step st op) R → Forest (Lists (step st op) R) := by
  obtain ⟨hvalid, hcond⟩ := hop
  refine views_step (fun L M hLM => Forest.mono hLM) hwf hvalid hV ?_ ?_
  · intro E hdir hat hw
    cases op with
    | create parent name epoch =>
      cases hat
      obtain ⟨e, hs⟩ | ⟨d, -, -, -, hd, -, hs⟩ := vfsCreate_call st parent name E
      · rw [step, hs]
        exact hV E hw
      · rw [step, hs]
        exact addNode_forest hwf hw (.file _) hd (hV E hw)
    | mkdir parent name epoch =>
      cases hat
      obtain ⟨e, hs⟩ | ⟨d, -, -, hd, hs⟩ := vfsMkdir_call st parent name E
      · rw [step, hs]
        exact hV E hw
      · rw [step, hs]
        exact addNode_forest hwf hw (.dir _) hd (hV E hw)
    | delete parent name epoch =>
      cases hat
      obtain hs | ⟨-, ht⟩ := vfsDelete_cases hwf.dir parent name E
      · rw [step, hs]
        exact hV E hw
      · exact (hV E hw).mono (ht.lists hwf.epoch hw hwf.dir)
    | rmdir parent name epoch =>
      cases hat
      obtain hs | ⟨-, ht⟩ := vfsRmdir_cases st parent name E
      · rw [step, hs]
        exact hV E hw
      · exact (hV E hw).mono (ht.lists hwf.epoch hw hwf.dir)
    | rename srcParent src dstParent dst epoch =>
      cases hat
      obtain hs | ⟨child, childId, -, hfind, hr⟩ :=
        vfsRename_cases hwf.dir srcParent src dstParent dst E
      · rw [step, hs]
        exact hV E hw
      · obtain ⟨slot, hfound, hbelow⟩ := hcond child childId hfind
        exact hr.forest hwf hw (hV E hw) hfound hbelow
    | _ => cases hdir
  · rintro S st1 rfl
    exact hcond.elim

/-! ## Runs -/

theorem forest_run {pageSize segmentSize : Nat} (hp : 0 < pageSize) (hs : 0 < segmentSize)
    {ops : List Op} (h : Run.AllSteps step KeepsForest (bootstrap pageSize segmentSize) ops) :
    Wf (run (bootstrap pageSize segmentSize) ops) ∧
      ∀ R, Writable (run (bootstrap pageSize segmentSize) ops) R →
        Forest (Lists (run (bootstrap pageSize segmentSize) ops) R) := by
  refine Run.invariant (fun st => Wf st ∧ ∀ R, Writable st R → Forest (Lists st R))
    (fun st op hinv hop => ⟨step_wf hinv.1 hop.1, forest_step hinv.1 hop hinv.2⟩)
    ⟨bootstrap_wf hp hs, fun R _ => ⟨fun _ _ _ _ _ _ _ hl => absurd hl bootstrap_lists, ?_⟩⟩ h
  intro d hd
  obtain ⟨c, ⟨s, n, hl⟩, -⟩ := Relation.TransGen.head'_iff.1 hd
  exact bootstrap_lists hl

/-- `vfs_readdir` of `dir` at `epoch` has an entry for `child` under `name`. -/
def ReaddirHas (st : State) (epoch : Int) (dir : VPtr) (name : Name) (child : VPtr) : Prop :=
  ∃ entries, vfsReaddir st dir epoch = .ok entries ∧ ∃ e ∈ entries, e.name = name ∧ e.vp = child

theorem ReaddirHas.lists {dir child : VPtr} (hwf : Wf st) (he : Writable st epoch)
    (h : ReaddirHas st epoch dir name child) : ∃ slot, Lists st epoch dir slot name child := by
  obtain ⟨entries, hlist, e, hmem, rfl, rfl⟩ := h
  rw [vfsReaddir] at hlist
  split at hlist
  · rename_i d hd
    cases hlist
    rw [hwf.epoch.resolve_writable he] at hmem
    obtain ⟨slot, hslot, hentry⟩ := List.mem_filterMap.1 hmem
    exact ⟨slot, listSlot_lists hd hslot hentry⟩
  · cases hlist

/-- **The name space is a tree.** In every volume reached by steps that keep the name space a
forest, at the head and at every active snapshot no directory is below itself, and each node is
listed by at most one directory under at most one name. -/
theorem namespace_forest {pageSize segmentSize : Nat} (hp : 0 < pageSize) (hs : 0 < segmentSize)
    (ops : List Op) (h : Run.AllSteps step KeepsForest (bootstrap pageSize segmentSize) ops)
    (epoch : Int) (he : Writable (run (bootstrap pageSize segmentSize) ops) epoch) :
    let st := run (bootstrap pageSize segmentSize) ops
    (∀ dir, ¬ Relation.TransGen (fun d c => ∃ name, ReaddirHas st epoch d name c) dir dir) ∧
      ∀ dir dir' name name' child, ReaddirHas st epoch dir name child →
        ReaddirHas st epoch dir' name' child → dir = dir' ∧ name = name' := by
  obtain ⟨hwf, hV⟩ := forest_run hp hs h
  intro st
  obtain ⟨hchild, hacyclic⟩ := hV epoch he
  refine ⟨fun dir hdir => hacyclic dir (Relation.TransGen.mono ?_ dir dir hdir), ?_⟩
  · rintro d c ⟨name, hhas⟩
    obtain ⟨slot, hl⟩ := hhas.lists hwf he
    exact ⟨slot, name, hl⟩
  · intro dir dir' name name' child hhas hhas'
    obtain ⟨slot, hl⟩ := hhas.lists hwf he
    obtain ⟨slot', hl'⟩ := hhas'.lists hwf he
    obtain rfl := hchild _ _ _ _ _ _ _ hl hl'
    obtain ⟨d, dc, hd, hmem, hdc, hname, -⟩ := hl
    obtain ⟨d', dc', hd', hmem', hdc', hname', -⟩ := hl'
    refine ⟨hwf.dir.slot_dir dir d dir' d' slot hd hd' hmem hmem', ?_⟩
    rw [hdc] at hdc'
    cases hdc'
    rw [hname] at hname'
    exact Option.some.inj hname'

theorem namespace_forest_move_up :
    let st := run (bootstrap 8192 1024)
      [.mkdir 1 [97] 0, .create 2 [98] 0, .snapshot, .rename 2 [98] 1 [99] 2]
    (∀ dir, ¬ Relation.TransGen (fun d c => ∃ name, ReaddirHas st 2 d name c) dir dir) ∧
      ∀ dir dir' name name' child, ReaddirHas st 2 dir name child →
        ReaddirHas st 2 dir' name' child → dir = dir' ∧ name = name' := by
  refine namespace_forest (show 0 < 8192 by decide) (show 0 < 1024 by decide)
    [.mkdir 1 [97] 0, .create 2 [98] 0, .snapshot, .rename 2 [98] 1 [99] 2]
    ⟨⟨.inl rfl, trivial⟩, ⟨.inl rfl, trivial⟩, ⟨?_, trivial⟩, ⟨.inl rfl, ?_⟩, trivial⟩ 2 (.inl rfl)
  · show (0 : Int) + 2 < 2 ^ 31
    decide
  · intro child childId hfind
    cases hfind
    refine ⟨7, ⟨_, rfl, rfl, _, _, rfl, by decide, rfl, rfl, rfl⟩, .inr fun hbelow => ?_⟩
    -- nothing is below the file
    obtain h | ⟨c, ⟨s, n, d, dc, hd, -⟩, -⟩ := Relation.ReflTransGen.cases_head hbelow
    · cases h
    · cases hd

/-- `vfs_rename` moves a directory into itself: it is then listed by itself. -/
theorem rename_into_itself_lists_itself :
    Run.AllSteps step ValidOp (bootstrap 8192 1024) [.mkdir 1 [97] 0, .rename 1 [97] 2 [98] 0] ∧
      (vfsReaddir (run (bootstrap 8192 1024) [.mkdir 1 [97] 0, .rename 1 [97] 2 [98] 0]) 2
        0).toOption = some [⟨2, 1, true, [98]⟩] := by
  exact ⟨⟨.inl rfl, .inl rfl, trivial⟩, by decide +kernel⟩

end SphereVFS
