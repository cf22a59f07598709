import SphereVFS.Resolvable
import SphereVFS.Lib.DepthFirst

/-!
# SphereVFS.ParentSearch

The searches for the parent of a file with which the bin jobs begin (`gc_bin_file_deleted.c`,
`gc_bin_rename_tombstone.c`).

Both walk down from the root through every entry that has a name, whatever its epoch, and remember no
directory. So they follow directories to where they once were, and end only if no directory was ever
moved to a place below itself.
-/

namespace SphereVFS

open DepthFirst Relation

/-! ## The walks -/

/-- What the walks read of an entry: `childPtr`, and whether `namePtr` is set. -/
structure WalkEntry where
  child : VPtr
  named : Bool
  deriving DecidableEq, Repr

/-- The entries below a node, newest slot and newest entry first. The walks do not look
at the type of a node: a `FileNode`, its segments, `PageNode`s and `VersionPage`s have their pointers
where a directory's have theirs, and a `VersionPage` reads as an entry for its data page without a
name. -/
def walkEntries (st : State) (v : VPtr) : List WalkEntry :=
  match st.nodes v with
  | some (.dir d) =>
    d.slotList.flatMap fun slot =>
      ((st.slots slot).elim [] SlotNode.chain).map fun dc => ⟨dc.childPtr, dc.name.isSome⟩
  | some (.file f) =>
    f.contents.flatMap fun c => c.pages.flatMap fun p =>
      ((st.pageNodes p).elim [] PageNode.versions).map fun version => ⟨version.dataPage, false⟩
  | none => []

/-- The loop body of `walk_dir_recursive`. The state is `out_parent` once the file is found. -/
def visitEntry (file dir : VPtr) (e : WalkEntry) (found : Option VPtr) : Visit (Option VPtr) :=
  if found.isSome then .done found
  else if e.child = file ∧ e.named then .done (some dir)
  else if e.named ∧ e.child ≠ 0 then .enter
  else .next found

/-- The loop body of `walk_dir_recursive_rename`. A tombstone of the file is a match too, and the loops
go on after the file was found below. -/
def visitEntryRename (file dir : VPtr) (e : WalkEntry) (found : Option VPtr) : Visit (Option VPtr) :=
  if e.child = file then .done (some dir)
  else if e.named ∧ e.child ≠ 0 ∧ e.child ≠ file then .enter
  else .next found

def walkDirRecursive (st : State) (file : VPtr) : Nat → VPtr → Option VPtr → Option (Option VPtr) :=
  walk (walkEntries st) WalkEntry.child Option.isSome (visitEntry file)

def walkDirRecursiveRename (st : State) (file : VPtr) :
    Nat → VPtr → Option VPtr → Option (Option VPtr) :=
  walk (walkEntries st) WalkEntry.child Option.isSome (visitEntryRename file)

/-- `find_parent_dir`; `none` if the recursion is deeper than the fuel. -/
def findParentDir (st : State) (fuel : Nat) (file : VPtr) : Option (Except Err VPtr) :=
  if file = 0 then some (.error .io)
  else if st.root = 0 then some (.error .notFound)
  else (walkDirRecursive st file fuel st.root none).map fun found =>
    found.elim (.error .notFound) .ok

def findParentDirRename (st : State) (fuel : Nat) (file : VPtr) : Option (Except Err VPtr) :=
  if file = 0 then some (.error .io)
  else if st.root = 0 then some (.error .notFound)
  else (walkDirRecursiveRename st file fuel st.root none).map fun found =>
    found.elim (.error .notFound) .ok

/-! ## What the walks follow -/

def Leads (st : State) (dir child : VPtr) : Prop :=
  child ≠ 0 ∧ ∃ d slot s dc, st.nodes dir = some (.dir d) ∧ slot ∈ d.slotList ∧
    st.slots slot = some s ∧ dc ∈ s.chain ∧ dc.name.isSome ∧ dc.childPtr = child

variable {st : State} {v w file dir : VPtr}

theorem leads_iff : Leads st v w ↔ ∃ e ∈ walkEntries st v, e.child = w ∧ e.named ∧ e.child ≠ 0 := by
  cases hv : st.nodes v with
  | none => simp [Leads, walkEntries, hv]
  | some node =>
    cases node with
    | file f =>
      simp only [Leads, walkEntries, hv]
      constructor
      · rintro ⟨-, d, -, -, -, hd, -⟩
        cases hd
      · rintro ⟨e, he, -, hnamed, -⟩
        simp only [List.mem_flatMap, List.mem_map] at he
        obtain ⟨c, -, p, -, version, -, rfl⟩ := he
        cases hnamed
    | dir d =>
      simp only [Leads, walkEntries, hv]
      constructor
      · rintro ⟨hw, d', slot, s, dc, hd, hslot, hs, hdc, hname, rfl⟩
        cases hd
        refine ⟨⟨dc.childPtr, dc.name.isSome⟩, ?_, rfl, hname, hw⟩
        exact List.mem_flatMap.2 ⟨slot, hslot, List.mem_map.2 ⟨dc, by simpa [hs] using hdc, rfl⟩⟩
      · rintro ⟨e, he, rfl, hnamed, hne⟩
        obtain ⟨slot, hslot, he⟩ := List.mem_flatMap.1 he
        obtain ⟨dc, hdc, rfl⟩ := List.mem_map.1 he
        cases hs : st.slots slot with
        | none => simp [hs] at hdc
        | some s => exact ⟨hne, d, slot, s, dc, rfl, hslot, hs, by simpa [hs] using hdc, hnamed, rfl⟩

/-- What the two loop bodies have in common: they enter only what an entry leads to, and while nothing
is found they enter every such entry that is not for the file. -/
structure Searches (file : VPtr) (visit : VPtr → WalkEntry → Option VPtr → Visit (Option VPtr)) :
    Prop where
  enter : ∀ dir e found, visit dir e found = .enter → e.named ∧ e.child ≠ 0
  other : ∀ dir e, e.child ≠ file →
    visit dir e none = if e.named ∧ e.child ≠ 0 then .enter else .next none

theorem visitEntry_searches (file : VPtr) : Searches file (visitEntry file) := by
  refine ⟨fun dir e found h => ?_, fun dir e h => by simp [visitEntry, h]⟩
  rw [visitEntry] at h
  grind

theorem visitEntryRename_searches (file : VPtr) : Searches file (visitEntryRename file) := by
  refine ⟨fun dir e found h => ?_, fun dir e h => by simp [visitEntryRename, h]⟩
  rw [visitEntryRename] at h
  grind

/-! ## When the walks finish -/

section Walk

variable {visit : VPtr → WalkEntry → Option VPtr → Visit (Option VPtr)} (hvisit : Searches file visit)
include hvisit

theorem leads_of_enters (h : Enters (walkEntries st) WalkEntry.child visit v w) : Leads st v w := by
  obtain ⟨e, he, hw, found, hent⟩ := h
  exact leads_iff.2 ⟨e, he, hw, hvisit.enter v e found hent⟩

theorem enters_of_leads (hfile : ∀ e ∈ walkEntries st v, e.child ≠ file) (h : Leads st v w) :
    Enters (walkEntries st) WalkEntry.child visit v w := by
  obtain ⟨e, he, hw, hnamed⟩ := leads_iff.1 h
  exact ⟨e, he, hw, none, by rw [hvisit.other v e (hfile e he), if_pos hnamed]⟩

theorem finishes_of_acc_leads (h : Acc (Function.swap (Leads st)) v) (found : Option VPtr) :
    Finishes (walkEntries st) WalkEntry.child Option.isSome visit v found :=
  finishes_of_acc (Subrelation.accessible (fun h => leads_of_enters hvisit h) h) found

theorem still_of_not_listed {P : VPtr → Prop} (hP : ∀ v w, P v → Leads st v w → P w)
    (hfile : ∀ v, P v → ∀ e ∈ walkEntries st v, e.child ≠ file) :
    Still (walkEntries st) WalkEntry.child Option.isSome visit P none := by
  refine ⟨rfl, fun v hv e he => ?_⟩
  rw [hvisit.other v e (hfile v hv e he)]
  by_cases hnamed : e.named ∧ e.child ≠ 0
  · exact .inl ⟨if_pos hnamed, hP v e.child hv (leads_iff.2 ⟨e, he, rfl, hnamed⟩)⟩
  · exact .inr ⟨if_neg hnamed, fun found h => hnamed (hvisit.enter v e found h)⟩

theorem finishes_iff_acc_leads {P : VPtr → Prop} (hP : ∀ v w, P v → Leads st v w → P w)
    (hfile : ∀ v, P v → ∀ e ∈ walkEntries st v, e.child ≠ file) (hv : P v) :
    Finishes (walkEntries st) WalkEntry.child Option.isSome visit v none ↔
      Acc (Function.swap (Leads st)) v := by
  refine ⟨fun h => ?_, fun h => finishes_of_acc_leads hvisit h none⟩
  have hacc := (finishes_iff_acc (still_of_not_listed hvisit hP hfile) hv).1 h
  clear h
  -- along the walk, what is led to is what is entered
  induction hacc with
  | intro v _ ih =>
    refine Acc.intro v fun w hw => ih w ?_ (hP v w hv hw)
    exact enters_of_leads hvisit (hfile v hv) hw

end Walk

/-! ## The volume -/

theorem leads_isSome (hwf : Wf st) (h : Leads st v w) : (st.nodes w).isSome := by
  obtain ⟨-, d, slot, s, dc, -, -, hs, hdc, -, rfl⟩ := h
  exact hwf.dir.entry_child slot s hs dc hdc

theorem finite_led_to (hwf : Wf st) (hroot : (st.nodes st.root).isSome) :
    {v | ReflTransGen (Leads st) st.root v}.Finite := by
  refine (Finset.range st.nextVp).finite_toSet.subset fun v hv => ?_
  rw [Finset.mem_coe, Finset.mem_range]
  have hsome : (st.nodes v).isSome := by
    cases hv with
    | refl => exact hroot
    | tail _ h => exact leads_isSome hwf h
  by_contra hge
  simp [hwf.dir.node_fresh v (not_lt.1 hge)] at hsome

theorem exists_not_listed (hwf : Wf st) :
    ∃ file, file ≠ 0 ∧ ∀ v, ∀ e ∈ walkEntries st v, e.child ≠ file := by
  obtain ⟨file, hfile⟩ := Infinite.exists_notMem_finset
    (0 :: (List.range st.nextVp).flatMap fun v => (walkEntries st v).map (·.child)).toFinset
  rw [List.mem_toFinset, List.mem_cons, not_or] at hfile
  refine ⟨file, hfile.1, fun v e he hchild => hfile.2 ?_⟩
  have hv : v < st.nextVp := by
    by_contra hge
    simp [walkEntries, hwf.dir.node_fresh v (not_lt.1 hge)] at he
  exact List.mem_flatMap.2 ⟨v, List.mem_range.2 hv, List.mem_map.2 ⟨e, he, hchild⟩⟩

theorem findParentDir_finishes (hroot : st.root ≠ 0) (hfile : file ≠ 0) :
    (∃ fuel, (findParentDir st fuel file).isSome) ↔
      Finishes (walkEntries st) WalkEntry.child Option.isSome (visitEntry file) st.root none := by
  simp [findParentDir, walkDirRecursive, Finishes, hroot, hfile]

theorem findParentDirRename_finishes (hroot : st.root ≠ 0) (hfile : file ≠ 0) :
    (∃ fuel, (findParentDirRename st fuel file).isSome) ↔
      Finishes (walkEntries st) WalkEntry.child Option.isSome (visitEntryRename file) st.root none := by
  simp [findParentDirRename, walkDirRecursiveRename, Finishes, hroot, hfile]

/-- **The parent searches finish.** In every volume reached by valid operations, both searches finish
for every file if and only if no directory that named entries lead to from the root, of any epoch,
leads back to itself. -/
theorem parent_search_finishes_iff {pageSize segmentSize : Nat} (hp : 0 < pageSize)
    (hs : 0 < segmentSize) (ops : List Op)
    (hrun : Run.AllSteps step ValidOp (bootstrap pageSize segmentSize) ops) :
    let st := run (bootstrap pageSize segmentSize) ops
    (∀ file, (∃ fuel, (findParentDir st fuel file).isSome) ∧
      ∃ fuel, (findParentDirRename st fuel file).isSome) ↔
    ∀ dir, ReflTransGen (Leads st) st.root dir → ¬ TransGen (Leads st) dir dir := by
  have hwf := reachable_wf hp hs hrun
  have hroot1 := reachable_root_eq hp hs hrun
  have hrootdir := (reachable_root hp hs hrun).2
  generalize run (bootstrap pageSize segmentSize) ops = st at *
  dsimp only
  have hroot0 : st.root ≠ 0 := by simp [hroot1]
  have hsome : (st.nodes st.root).isSome := isDir_isSome hrootdir
  rw [← acc_iff_no_cycle (finite_led_to hwf hsome)]
  constructor
  · intro h
    obtain ⟨file, hfile, hlisted⟩ := exists_not_listed hwf
    have hfin := (findParentDir_finishes hroot0 hfile).1 (h file).1
    exact (finishes_iff_acc_leads (P := fun _ => True) (visitEntry_searches file)
      (fun _ _ _ _ => trivial) (fun v _ => hlisted v) trivial).1 hfin
  · intro h file
    by_cases hfile : file = 0
    · exact ⟨⟨0, by simp [findParentDir, hfile]⟩, 0, by simp [findParentDirRename, hfile]⟩
    · rw [findParentDir_finishes hroot0 hfile, findParentDirRename_finishes hroot0 hfile]
      exact ⟨finishes_of_acc_leads (visitEntry_searches file) h none,
        finishes_of_acc_leads (visitEntryRename_searches file) h none⟩

/-- The search for a file in a directory that was moved up after a snapshot: every entry, old or new, has
the larger pointer. -/
theorem parent_search_finishes_moved_up :
    let st := run (bootstrap 8192 1024)
      [.mkdir 1 [97] 0, .mkdir 2 [98] 0, .create 5 [99] 0, .snapshot, .rename 2 [98] 1 [100] 2]
    (∃ fuel, (findParentDir st fuel 8).isSome) ∧ ∃ fuel, (findParentDirRename st fuel 8).isSome := by
  generalize hops : [Op.mkdir 1 [97] 0, .mkdir 2 [98] 0, .create 5 [99] 0, .snapshot,
    .rename 2 [98] 1 [100] 2] = ops
  have hrun : Run.AllSteps step ValidOp (bootstrap 8192 1024) ops := by
    subst hops
    decide +kernel
  have hup : ∀ v < (run (bootstrap 8192 1024) ops).nextVp,
      ∀ e ∈ walkEntries (run (bootstrap 8192 1024) ops) v, v < e.child := by
    subst hops
    decide +kernel
  have hwf := reachable_wf (by decide) (by decide) hrun
  refine (parent_search_finishes_iff (by decide) (by decide) ops hrun).2 (fun dir _ hcycle => ?_) 8
  have hlt : TransGen (fun v w : VPtr => v < w) dir dir := by
    refine TransGen.mono (fun v w h => ?_) dir dir hcycle
    have hv : v < (run (bootstrap 8192 1024) ops).nextVp := by
      obtain ⟨-, d, -, -, -, hd, -⟩ := id h
      by_contra hge
      simp [hwf.dir.node_fresh v (not_lt.1 hge)] at hd
    obtain ⟨e, he, rfl, -⟩ := leads_iff.1 h
    exact hup v hv e he
  rw [transGen_eq_self] at hlt
  exact lt_irrefl dir hlt

/-- Directory `a` is moved into `b` and back, and then `b` into `a`. -/
def movedBack : List Op :=
  [.create 1 [99] 0, .mkdir 1 [97] 0, .mkdir 1 [98] 0, .rename 1 [97] 8 [97] 0, .rename 8 [97] 1 [97] 0,
    .rename 1 [98] 5 [98] 0]

theorem movedBack_entries :
    walkEntries (run (bootstrap 8192 1024) movedBack) 5 = [⟨8, true⟩] ∧
      walkEntries (run (bootstrap 8192 1024) movedBack) 8 = [⟨5, false⟩, ⟨5, true⟩] := by
  decide +kernel

theorem movedBack_walk {visit : VPtr → WalkEntry → Option VPtr → Visit (Option VPtr)}
    (hvisit : Searches 2 visit) (fuel : Nat) :
    walk (walkEntries (run (bootstrap 8192 1024) movedBack)) WalkEntry.child Option.isSome visit fuel 5
      none = none := by
  obtain ⟨h5, h8⟩ := movedBack_entries
  generalize run (bootstrap 8192 1024) movedBack = st at *
  have hfrom5 : ∀ w, Leads st 5 w ↔ 8 = w := fun w => by simp [leads_iff, h5]
  have hfrom8 : ∀ w, Leads st 8 w ↔ 5 = w := fun w => by simp [leads_iff, h8]
  have hcycle : TransGen (Leads st) 5 5 := .tail (.single ((hfrom5 8).2 rfl)) ((hfrom8 5).2 rfl)
  have hP : ∀ v w, (v = 5 ∨ v = 8) → Leads st v w → w = 5 ∨ w = 8 := by
    rintro v w (rfl | rfl) h
    · exact .inr ((hfrom5 w).1 h).symm
    · exact .inl ((hfrom8 w).1 h).symm
  have hfile : ∀ v, v = 5 ∨ v = 8 → ∀ e ∈ walkEntries st v, e.child ≠ 2 := by
    rintro v (rfl | rfl)
    · simp [h5]
    · simp [h8]
  by_contra hsome
  have hfin : Finishes (walkEntries st) WalkEntry.child Option.isSome visit 5 none :=
    ⟨fuel, Option.isSome_iff_ne_none.2 hsome⟩
  exact not_transGen_of_acc ((finishes_iff_acc_leads hvisit hP hfile (.inl rfl)).1 hfin) hcycle

theorem moved_back_search_never_finishes :
    Run.AllSteps step ValidOp (bootstrap 8192 1024) movedBack ∧
    (let st := run (bootstrap 8192 1024) movedBack
     vfsOpen st 1 [99] 0 = .ok 2 ∧
       ∀ fuel, findParentDir st fuel 2 = none ∧ findParentDirRename st fuel 2 = none) := by
  refine ⟨by decide +kernel, by decide +kernel, fun fuel => ?_⟩
  have hroot : walkEntries (run (bootstrap 8192 1024) movedBack) 1 =
      [⟨5, true⟩, ⟨8, false⟩, ⟨8, true⟩, ⟨5, false⟩, ⟨5, true⟩, ⟨2, true⟩] := by decide +kernel
  have hone : (run (bootstrap 8192 1024) movedBack).root = 1 := rfl
  cases fuel with
  | zero => simp [findParentDir, findParentDirRename, walkDirRecursive, walkDirRecursiveRename, walk, hone]
  | succ fuel =>
    have hdeleted := movedBack_walk (visitEntry_searches 2) fuel
    have hrenamed := movedBack_walk (visitEntryRename_searches 2) fuel
    simp [findParentDir, findParentDirRename, walkDirRecursive, walkDirRecursiveRename, walk, hone, hroot,
      loop, visitEntry, visitEntryRename, hdeleted, hrenamed]

end SphereVFS
