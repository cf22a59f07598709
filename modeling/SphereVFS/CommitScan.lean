import SphereVFS.Resolvable

/-!
# SphereVFS.CommitScan

How exact the conflict scan of `vfs_commit` is.

A page conflicts if its chain has a version at the snapshot and one at a later head, and it is below
the size at the snapshot of a file that the snapshot shows. The scan misses such a page behind a page
of its file that was never written, and behind a directory at the depth limit, which it reports
instead.
-/

namespace SphereVFS

variable {st st' st1 : State} {S : Int} {file : VPtr} {f : FileNode} {lp : Nat}

/-- The chain has a version of effective epoch `S` and one of a later even effective epoch. -/
def VersionsConflict (st : State) (S : Int) (versions : List VersionPage) : Prop :=
  (∃ v ∈ versions, effEpoch st.mapperTable v.epoch = S) ∧
    ∃ v ∈ versions, S < effEpoch st.mapperTable v.epoch ∧ effEpoch st.mapperTable v.epoch % 2 = 0

/-- A conflicting page of a file that `S` shows below `dir`, holes or not. -/
def Conflicting (st : State) (S : Int) (dir : VPtr) : Prop :=
  ∃ n d slot name file f lp pn, DirBelow st S dir n d ∧ Lists st S d slot name file ∧
    st.nodes file = some (.file f) ∧ (lp * st.pageSize < sizechainGet st S f.sizes ∨ lp = 0) ∧
    pageNodeOf st file lp = some pn ∧ VersionsConflict st S (versionsOf st pn)

/-- The scan of `dir` comes to a conflicting page before it comes to a directory `fuel` levels down:
the slots before the one that leads to the page are clean, and no page of the file before it is a
hole. -/
def ConflictFirst (st : State) (S : Int) : Nat → VPtr → Prop
  | 0, _ => False
  | fuel + 1, dir => ∃ d before slot after, st.nodes dir = some (.dir d) ∧
      d.slotList = before ++ slot :: after ∧ (∀ v ∈ before, SlotClean st S fuel dir v) ∧
      ∃ name child, Lists st S dir slot name child ∧
        ((∃ f, st.nodes child = some (.file f) ∧ PagesClash st S child (scanCount st S f) 0) ∨
          isDir st child = true ∧ ConflictFirst st S fuel child)

theorem versionsConflict_iff (hwf : Wf st) (hS : Active st S) {versions : List VersionPage} :
    VersionsConflict st S versions ↔ WrittenAtBoth st S versions := by
  constructor
  · rintro ⟨⟨v, hv, heff⟩, hlater⟩
    exact ⟨⟨v, hv, effEpoch_eq_odd hwf.epoch.rows hS.1 heff⟩, hlater⟩
  · rintro ⟨⟨v, hv, rfl⟩, hlater⟩
    refine ⟨⟨v, hv, effEpoch_unmapped ?_⟩, hlater⟩
    rw [hwf.epoch.u32_issued (.inr ⟨hS.1, hS.2.1, hS.2.2.1⟩)]
    exact hS.2.2.2

theorem lt_scanCount_iff (hpos : 0 < st.pageSize) :
    lp < scanCount st S f ↔ lp * st.pageSize < sizechainGet st S f.sizes ∨ lp = 0 := by
  rw [scanCount, lt_max_iff, Nat.lt_one_iff, or_comm, Nat.lt_iff_add_one_le,
    Nat.le_div_iff_mul_le hpos, Nat.succ_mul]
  refine or_congr_left ?_
  omega

theorem Clash.conflicting (hwf : Wf st) (hS : Active st S) {dir : VPtr} (h : Clash st S dir) :
    Conflicting st S dir := by
  obtain ⟨n, d, slot, name, file, f, lp, pn, hbelow, hl, hf, hlp, -, hpn, hboth⟩ := h
  exact ⟨n, d, slot, name, file, f, lp, pn, hbelow, hl, hf,
    (lt_scanCount_iff hwf.file.page_pos).1 hlp, hpn, (versionsConflict_iff hwf hS).2 hboth⟩

theorem ConflictFirst.clash {fuel : Nat} {dir : VPtr} (h : ConflictFirst st S fuel dir) :
    Clash st S dir := by
  induction fuel generalizing dir with
  | zero => exact h.elim
  | succ fuel ih =>
    obtain ⟨-, -, slot, -, -, -, -, name, child, hl, hpages | ⟨hc, hrest⟩⟩ := h
    · exact clash_iff.2 ⟨slot, name, child, hl, .inl hpages⟩
    · exact clash_iff.2 ⟨slot, name, child, hl, .inr ⟨hc, ih hrest⟩⟩

/-! ## What the scan reports first -/

theorem scanList_some_iff {check : State → VPtr → Option Err × State} {e : Err} (J : State → Prop)
    (P Q : VPtr → Prop) (vs : List VPtr) (hkeep : ∀ st v, J st → J (check st v).2)
    (hnone : ∀ st, J st → ∀ v ∈ vs, (check st v).1 = none ↔ P v)
    (hsome : ∀ st, J st → ∀ v ∈ vs, (check st v).1 = some e ↔ Q v) (hst : J st) :
    (scanList check vs st).1 = some e ↔
      ∃ before v after, vs = before ++ v :: after ∧ (∀ w ∈ before, P w) ∧ Q v := by
  induction vs generalizing st with
  | nil => simp [scanList]
  | cons v vs ih =>
    have hv := hnone st hst v List.mem_cons_self
    have hv' := hsome st hst v List.mem_cons_self
    have hrest := ih (fun st hst w hw => hnone st hst w (List.mem_cons_of_mem v hw))
      (fun st hst w hw => hsome st hst w (List.mem_cons_of_mem v hw)) (hkeep st v hst)
    have hsplit : (∃ before w after, v :: vs = before ++ w :: after ∧ (∀ u ∈ before, P u) ∧ Q w) ↔
        Q v ∨ P v ∧ ∃ before w after, vs = before ++ w :: after ∧ (∀ u ∈ before, P u) ∧ Q w := by
      constructor
      · rintro ⟨_ | ⟨u, before⟩, w, after, heq, hbefore, hw⟩
        · cases heq
          exact .inl hw
        · cases heq
          rw [List.forall_mem_cons] at hbefore
          exact .inr ⟨hbefore.1, before, w, after, rfl, hbefore.2, hw⟩
      · rintro (hq | ⟨hp, before, w, after, rfl, hbefore, hw⟩)
        · exact ⟨[], v, vs, rfl, by simp, hq⟩
        · exact ⟨v :: before, w, after, rfl, List.forall_mem_cons.2 ⟨hp, hbefore⟩, hw⟩
    rw [hsplit, ← hv, ← hv', ← hrest, scanList]
    generalize check st v = r at *
    obtain ⟨_ | e', st1⟩ := r
    · simp
    · simp

theorem ScanDone.conflict_iff {r : Option Err} (h : ScanDone r) :
    r = some .conflict ↔ ¬ r = none := by
  obtain rfl | rfl := h
  all_goals simp

theorem scanSlot_conflict_iff {fuel : Nat} (hwf : Wf st) (hS : Active st S) (h : ScanState st st1)
    {dir slot : VPtr} {d : DirNode} (hd : st.nodes dir = some (.dir d)) (hmem : slot ∈ d.slotList)
    (hscan : ∀ child, isDir st child = true →
      ((commitScanDir S fuel st1 child).1 = some .conflict ↔ ConflictFirst st S fuel child)) :
    (scanSlot S (commitScanDir S fuel) st1 slot).1 = some .conflict ↔
      ∃ name child, Lists st S dir slot name child ∧
        ((∃ f, st.nodes child = some (.file f) ∧ PagesClash st S child (scanCount st S f) 0) ∨
          isDir st child = true ∧ ConflictFirst st S fuel child) := by
  obtain ⟨hno, hnone⟩ | ⟨name, child, hl, ⟨hc, heq⟩ | ⟨f, hf, hdone, hiff⟩⟩ :=
    scanSlot_cases hwf hS h hd hmem (commitScanDir S fuel)
  · refine iff_of_false (by simp [hnone]) ?_
    rintro ⟨name, child, hl, -⟩
    exact hno name child hl
  · rw [heq, hscan child hc]
    obtain ⟨c, hn⟩ := isDir_iff.1 hc
    constructor
    · exact fun hfirst => ⟨name, child, hl, .inr ⟨hc, hfirst⟩⟩
    · rintro ⟨name', child', hl', hor⟩
      rw [lists_child_eq hl hl'] at hor
      obtain ⟨f, hf, -⟩ | ⟨-, hfirst⟩ := hor
      · simp [hn] at hf
      · exact hfirst
  · rw [hdone.conflict_iff, hiff, not_not]
    constructor
    · exact fun hpages => ⟨name, child, hl, .inl ⟨f, hf, hpages⟩⟩
    · rintro ⟨name', child', hl', hor⟩
      rw [lists_child_eq hl hl'] at hor
      obtain ⟨f', hf', hpages⟩ | ⟨hc, -⟩ := hor
      · obtain rfl : f = f' := by simpa [hf] using hf'
        exact hpages
      · simp [isDir, hf] at hc

theorem commitScanDir_conflict_iff (fuel : Nat) (hwf : Wf st) (hS : Active st S) (dir : VPtr)
    (hst : ScanState st st1) (hdir : isDir st dir = true) :
    (commitScanDir S fuel st1 dir).1 = some .conflict ↔ ConflictFirst st S fuel dir := by
  induction fuel generalizing st1 dir with
  | zero => exact iff_of_false (by simp [commitScanDir]) id
  | succ fuel ih =>
    obtain ⟨d, hd⟩ := isDir_iff.1 hdir
    rw [commitScanDir_slots hst hd, scanList_some_iff (ScanState st) (SlotClean st S fuel dir) _
      d.slotList (fun _ slot h => h.slot hwf fuel slot)
      (fun _ h slot hmem => scanSlot_none_iff hwf hS h hd hmem fun child hc =>
        commitScanDir_none_iff fuel hwf hS child h hc)
      (fun _ h slot hmem => scanSlot_conflict_iff hwf hS h hd hmem fun child hc => ih child h hc) hst,
      ConflictFirst]
    constructor
    · rintro ⟨before, slot, after, heq, hclean, hslot⟩
      exact ⟨d, before, slot, after, hd, heq, hclean, hslot⟩
    · rintro ⟨d', before, slot, after, hd', heq, hclean, hslot⟩
      obtain rfl : d = d' := by simpa [hd] using hd'
      exact ⟨before, slot, after, heq, hclean, hslot⟩

/-! ## Exactness -/

def ScanExact (st : State) (S : Int) : Prop :=
  ((commitScanDir S commitScanMaxDepth st st.root).1 = some .conflict ↔ Conflicting st S st.root) ∧
    (¬ Conflicting st S st.root → (commitScanDir S commitScanMaxDepth st st.root).1 = none)

/-- **Conflict detection.** In a volume reached by valid operations, the scan for an active snapshot
is exact if and only if a conflicting page, where there is one, is met before the depth limit and not
behind a hole, and, where there is none, all directories that the snapshot shows are within the
limit. -/
theorem conflict_scan_exact_iff {pageSize segmentSize : Nat} (hp : 0 < pageSize)
    (hs : 0 < segmentSize) (ops : List Op)
    (hops : Run.AllSteps step ValidOp (bootstrap pageSize segmentSize) ops) (S : Int)
    (hS : Active (run (bootstrap pageSize segmentSize) ops) S) :
    let st := run (bootstrap pageSize segmentSize) ops
    ScanExact st S ↔
      (Conflicting st S st.root → ConflictFirst st S commitScanMaxDepth st.root) ∧
      (¬ Conflicting st S st.root → Shallow st S st.root commitScanMaxDepth) := by
  obtain ⟨hwf, hroot⟩ := reachable_root hp hs hops
  intro st
  have hconf := commitScanDir_conflict_iff commitScanMaxDepth hwf hS st.root (.start st) hroot
  have hnone := commitScanDir_none_iff commitScanMaxDepth hwf hS st.root (.start st) hroot
  have hsound : ConflictFirst st S commitScanMaxDepth st.root → Conflicting st S st.root :=
    fun h => h.clash.conflicting hwf hS
  have hclear : ¬ Conflicting st S st.root → ¬ Clash st S st.root := mt (Clash.conflicting hwf hS)
  rw [ScanExact, hconf, hnone]
  constructor
  · rintro ⟨hiff, hno⟩
    exact ⟨hiff.2, fun h => (hno h).1⟩
  · rintro ⟨hfirst, hshallow⟩
    exact ⟨⟨hsound, hfirst⟩, fun h => ⟨hshallow h, hclear h⟩⟩

def firstPageBoth : List Op :=
  [.create 1 [97] 0, .snapshot, .write 2 [7] 0 1, .write 2 [8] 0 2]

theorem firstPageBoth_valid : Run.AllSteps step ValidOp (bootstrap 8192 1024) firstPageBoth := by
  refine ⟨.inl rfl, ?_, ⟨.inr (by decide +kernel), by decide +kernel⟩,
    ⟨.inl (by decide +kernel), by decide +kernel⟩, trivial⟩
  show (0 : Int) + 2 < 2 ^ 31
  decide

theorem firstPageBoth_conflictFirst :
    ConflictFirst (run (bootstrap 8192 1024) firstPageBoth) 1 commitScanMaxDepth 1 := by
  have hlists : Lists (run (bootstrap 8192 1024) firstPageBoth) 1 1 4 [97] 2 :=
    ⟨_, _, rfl, List.mem_singleton.2 rfl, rfl, rfl, rfl⟩
  have hboth : WrittenAtBoth (run (bootstrap 8192 1024) firstPageBoth) 1 [⟨2, 1⟩, ⟨1, 0⟩] :=
    ⟨⟨⟨1, 0⟩, by decide, rfl⟩, ⟨2, 1⟩, by decide, by decide +kernel, by decide +kernel⟩
  refine ⟨_, [], 4, [], rfl, rfl, nofun, [97], 2, hlists, .inl ⟨_, rfl, 0, 5, Nat.le_refl _, ?_, nofun,
    rfl, hboth⟩⟩
  decide +kernel

theorem conflict_scan_exact_first_page :
    ScanExact (run (bootstrap 8192 1024) firstPageBoth) 1 := by
  have hS : Active (run (bootstrap 8192 1024) firstPageBoth) 1 :=
    ⟨by decide, by decide, by decide +kernel, nofun⟩
  have hwf := (reachable_root (by decide) (by decide) firstPageBoth_valid).1
  refine (conflict_scan_exact_iff (by decide) (by decide) _ firstPageBoth_valid 1 hS).2
    ⟨fun _ => firstPageBoth_conflictFirst, fun hno => ?_⟩
  exact absurd (firstPageBoth_conflictFirst.clash.conflicting hwf hS) hno

def secondPageBoth : List Op :=
  [.create 1 [97] 0, .snapshot, .write 2 [7] 8192 1, .write 2 [8] 8192 2]

/-- The scan stops at the hole and reports nothing, though the page behind it conflicts. -/
theorem conflict_behind_hole_missed :
    let st := run (bootstrap 8192 1024) secondPageBoth
    Run.AllSteps step ValidOp (bootstrap 8192 1024) secondPageBoth ∧ Active st 1 ∧
      Conflicting st 1 st.root ∧ (commitScanDir 1 commitScanMaxDepth st st.root).1 = none := by
  have hconf : VersionsConflict (run (bootstrap 8192 1024) secondPageBoth) 1 [⟨2, 1⟩, ⟨1, 0⟩] :=
    ⟨⟨⟨1, 0⟩, by decide, by decide +kernel⟩, ⟨2, 1⟩, by decide, by decide +kernel, by decide +kernel⟩
  refine ⟨⟨.inl rfl, ?_, ⟨.inr (by decide +kernel), by decide +kernel⟩,
    ⟨.inl (by decide +kernel), by decide +kernel⟩, trivial⟩,
    ⟨by decide, by decide, by decide +kernel, nofun⟩, ?_, by decide +kernel⟩
  · show (0 : Int) + 2 < 2 ^ 31
    decide
  · refine ⟨0, 1, 4, [97], 2, _, 1, 5, .here 1, ⟨_, _, rfl, List.mem_singleton.2 rfl, rfl, rfl, rfl⟩,
      rfl, .inl ?_, rfl, hconf⟩
    decide +kernel

end SphereVFS
