import SphereVFS.CommitEffect

/-!
# SphereVFS.Resolvable

When an active snapshot can be committed or soft-deleted.

`mapper_insert` refuses a row whose target is the target of another row. A soft-delete of `S` thus
needs that nothing was mapped to `S - 1`, and a commit that nothing was mapped to the head. A commit
is refused as well when the scan meets a directory at its depth limit. Where no page was written at
both sides, these are the only obstacles.
-/

namespace SphereVFS

variable {st st' st1 : State} {S : Int} {file : VPtr} {f : FileNode} {lp : Nat}

/-! ## New rows -/

theorem RowOk.to_even {head : Int} {r : MapperRow} (h : RowOk head r) : r.toEpoch % 2 = 0 := by
  obtain ⟨hodd, -, -, happly, hdel⟩ := h
  cases ha : r.traversalApply with
  | true => exact (happly ha).1
  | false =>
    have := hdel ha
    omega

theorem addMapping_isSome_iff (hep : EpochWf st) (hodd : S % 2 = 1) (hun : Unmapped st.mapperTable S)
    {target : Int} (heven : target % 2 = 0) (apply : Bool) :
    (addMapping st ⟨S, target, apply⟩).isSome ↔ ∀ r ∈ st.mapper, r.toEpoch ≠ target := by
  have hclash : ∀ r ∈ st.mapper, mapperClash r ⟨S, target, apply⟩ = true ↔ r.toEpoch = target := by
    intro r hr
    have hrow := hep.rows r ((hep.chain r).1 hr)
    have hfrom := hrow.1
    have hto := hrow.to_even
    have hne := hun r ((hep.chain r).1 hr)
    simp only [mapperClash, Bool.or_eq_true, beq_iff_eq]
    omega
  rw [addMapping, Option.isSome_map, mapperInsert]
  split
  · rename_i hany
    obtain ⟨r, hr, hc⟩ := List.any_eq_true.1 hany
    simpa using ⟨r, hr, (hclash r hr).1 hc⟩
  · rename_i hany
    refine iff_of_true rfl fun r hr hto => hany ?_
    exact List.any_eq_true.2 ⟨r, hr, (hclash r hr).2 hto⟩

theorem Active.check_mapper (hS : Active st S) (hep : EpochWf st) :
    ¬ S.tmod 2 = 0 ∧ resolve st.mapper S = S := by
  obtain ⟨hodd, hpos, hlt, hun⟩ := hS
  have hhead := hep.head_lt
  have hrows : ∀ r ∈ st.mapper, RowOk st.currentEpoch r :=
    fun r hr => hep.rows r ((hep.chain r).1 hr)
  refine ⟨by rw [Int.tmod_eq_emod_of_nonneg (by omega)]; omega, ?_⟩
  exact (resolve_eq_self hrows (by omega) (by omega)).2 fun r hr => hun r ((hep.chain r).1 hr)

theorem vfsDeleteSnapshot_ok_iff (hep : EpochWf st) (hS : Active st S) :
    (vfsDeleteSnapshot st S).1 = .ok () ↔ ∀ r ∈ st.mapper, r.toEpoch ≠ S - 1 := by
  obtain ⟨hodd, hres⟩ := hS.check_mapper hep
  have hlt := hep.head_lt
  have hu := Issued.odd_u32 hep hS.1 hS.2.1 hS.2.2.1
  have hu' : u32 (S - 1) = S - 1 := by
    obtain ⟨-, hpos, hhead, -⟩ := hS
    exact u32_of_range (by omega) (by omega)
  have heven : (S - 1) % 2 = 0 := by
    have := hS.1
    omega
  rw [← addMapping_isSome_iff hep hS.1 hS.2.2.2 heven false, vfsDeleteSnapshot, if_neg hodd,
    if_neg (by simpa using hres)]
  dsimp only
  rw [hu, hu']
  cases addMapping st ⟨S, S - 1, false⟩ with
  | none => simp
  | some st1 => simp

/-! ## The scan -/

/-- No page of any file was written both at the snapshot and at a later head. -/
def NoPageAtBoth (st : State) (S : Int) : Prop :=
  ∀ file lp pn, pageNodeOf st file lp = some pn → ¬ WrittenAtBoth st S (versionsOf st pn)

theorem both_of_pageConflict (hwf : Wf st) (hodd : S % 2 = 1) {versions : List VersionPage}
    (h : pageConflict st.mapperTable S versions = true) : WrittenAtBoth st S versions := by
  rw [pageConflict, Bool.and_eq_true, List.any_eq_true, List.any_eq_true] at h
  obtain ⟨⟨v, hv, hS⟩, w, hw, hlater⟩ := h
  refine ⟨⟨v, hv, effEpoch_eq_odd hwf.epoch.rows hodd (by simpa using hS)⟩, w, hw, ?_⟩
  simpa [AtLaterHead] using hlater

structure SamePages (st st1 : State) : Prop where
  pageNodes : st1.pageNodes = st.pageNodes
  nodeOf : ∀ file lp, pageNodeOf st1 file lp = pageNodeOf st file lp

theorem SamePages.of_nodes (hn : st1.nodes = st.nodes) (hp : st1.pageNodes = st.pageNodes)
    (hs : st1.segmentSize = st.segmentSize) : SamePages st st1 := by
  refine ⟨hp, fun file lp => ?_⟩
  have hidx : pageIdx st1 = pageIdx st := by
    funext v
    simp only [pageIdx, hp]
  have hfind : ∀ page vs, findPage st1 page vs = findPage st page vs := by
    intro page vs
    simp only [findPage, hidx]
  simp only [pageNodeOf, hn, hs, hfind]

theorem SamePages.trans {st2 : State} (h : SamePages st st1) (h' : SamePages st1 st2) :
    SamePages st st2 :=
  ⟨h'.pageNodes.trans h.pageNodes, fun file lp => (h'.nodeOf file lp).trans (h.nodeOf file lp)⟩

theorem SamePages.pad (hf : st.nodes file = some (.file f)) (seg : Nat) :
    SamePages st { st with
      nodes := Function.update st.nodes file
        (some (.file { f with contents := padSegments f.contents seg })) } := by
  refine ⟨rfl, fun file' lp => ?_⟩
  by_cases hfile : file' = file
  · subst hfile
    rw [pageNodeOf_file hf, pageNodeOf_file (Function.update_self ..), segPages_padSegments]
    rfl
  · simp only [pageNodeOf, Function.update_of_ne hfile]
    rfl

theorem treeResolvePage_samePages (st : State) (file : VPtr) (lp : Nat) :
    SamePages st (treeResolvePage st file lp false).2 :=
  treeResolvePage_rel (fun _ _ _ => .of_nodes rfl rfl rfl) .trans (fun _ _ _ seg hf => .pad hf seg) nofun nofun ..

structure ScanState (st st1 : State) : Prop where
  edits : FileEdits st st1
  pages : SamePages st st1

theorem ScanState.start (st : State) : ScanState st st := ⟨.refl, .of_nodes rfl rfl rfl⟩

theorem ScanState.trans {st2 : State} (h : ScanState st st1) (h' : ScanState st1 st2) :
    ScanState st st2 := ⟨h.edits.trans h'.edits, h.pages.trans h'.pages⟩

/-- The pages from `page` on that the loop comes to hold one that was written at both sides. -/
def PagesClash (st : State) (S : Int) (file : VPtr) (n page : Nat) : Prop :=
  ∃ lp pn, page ≤ lp ∧ lp < page + n ∧ (∀ l, page ≤ l → l < lp → (pageNodeOf st file l).isSome) ∧
    pageNodeOf st file lp = some pn ∧ WrittenAtBoth st S (versionsOf st pn)

theorem ScanState.pagesClash_iff {n page : Nat} (h : ScanState st st1) :
    PagesClash st1 S file n page ↔ PagesClash st S file n page := by
  simp only [PagesClash, h.pages.nodeOf, WrittenAtBoth, AtLaterHead,
    (FileEdits.dirsKept h.edits).table, versionsOf, h.pages.pageNodes]

theorem scanCount_samePages (st : State) (file : VPtr) (f : FileNode) (_ : st.nodes file = some (.file f)) :
    SamePages st (scanPages S file (scanCount st S f) 0 st).2 :=
  scanPages_rel (fun _ => .of_nodes rfl rfl rfl) .trans treeResolvePage_samePages ..

theorem pagesClash_succ_iff {n page : Nat} {pn : VPtr} (hpn : pageNodeOf st file page = some pn)
    (hno : ¬ WrittenAtBoth st S (versionsOf st pn)) :
    PagesClash st S file (n + 1) page ↔ PagesClash st S file n (page + 1) := by
  constructor
  · rintro ⟨lp, pn', hle, hlt, hsome, hpn', hboth⟩
    obtain rfl | hlt' := Nat.eq_or_lt_of_le hle
    · obtain rfl : pn = pn' := by simpa [hpn] using hpn'
      exact absurd hboth hno
    · exact ⟨lp, pn', hlt', by omega, fun l hl => hsome l (by omega), hpn', hboth⟩
  · rintro ⟨lp, pn', hle, hlt, hsome, hpn', hboth⟩
    refine ⟨lp, pn', by omega, by omega, fun l hl hlt' => ?_, hpn', hboth⟩
    obtain rfl | hl' := Nat.eq_or_lt_of_le hl
    · simp [hpn]
    · exact hsome l hl' hlt'

theorem scanPages_none_iff (n page : Nat) (hwf : Wf st) (hS : Active st S)
    (hf : st.nodes file = some (.file f)) (hsegs : ∀ l < page + n, l / st.segmentSize < 2 ^ 20) :
    (scanPages S file n page st).1 = none ↔ ¬ PagesClash st S file n page := by
  induction n generalizing st f page with
  | zero =>
    refine iff_of_true rfl ?_
    rintro ⟨lp, -, hle, hlt, -⟩
    omega
  | succ n ih =>
    have hres := treeResolvePage_spec hwf.file.pagesWf hf (hsegs page (by omega)) false
    have hkept := FileEdits.dirsKept hres.edits
    have hkeep := hres.edits.keeps hwf.file
    have hwf1 := hres.edits.wf hwf
    have hstate : ScanState st (treeResolvePage st file page false).2 :=
      ⟨hres.edits, treeResolvePage_samePages st file page⟩
    obtain ⟨f', hf', -⟩ := hkeep.sizes file f hf
    have hrest := ih (page + 1) hwf1 (hS.kept hkept) hf' (by
      intro l hl
      rw [hkeep.segmentSize]
      exact hsegs l (by omega))
    rw [hstate.pagesClash_iff] at hrest
    have hread := hres.read rfl
    have hS1 := hS.kept hkept
    have hboth : ∀ versions, WrittenAtBoth (treeResolvePage st file page false).2 S versions ↔
        WrittenAtBoth st S versions := by
      intro versions
      simp only [WrittenAtBoth, AtLaterHead, hkept.table]
    have hversions : ∀ pn, versionsOf (treeResolvePage st file page false).2 pn = versionsOf st pn := by
      intro pn
      simp only [versionsOf, hstate.pages.pageNodes]
    rw [scanPages]
    generalize treeResolvePage st file page false = r at *
    obtain ⟨_ | ⟨pn, pinned⟩, st1⟩ := r
    · -- the loop stops at the first page without a node
      have hnone : pageNodeOf st file page = none := hread.symm
      refine iff_of_true rfl ?_
      rintro ⟨lp, pn, hle, hlt, hsome, hpn, -⟩
      obtain rfl | hlt' := Nat.eq_or_lt_of_le hle
      · simp [hnone] at hpn
      · simpa [hnone] using hsome page (Nat.le_refl _) hlt'
    · have hpn : pageNodeOf st file page = some pn := hread.symm
      dsimp only at *
      split
      · rename_i hconf
        have hclash := both_of_pageConflict hwf1 hS.1 hconf
        rw [hboth, hversions] at hclash
        refine iff_of_false (by simp) (not_not.2 ⟨page, pn, Nat.le_refl _, by omega, ?_, hpn, hclash⟩)
        intro l hl hlt
        omega
      · rename_i hconf
        rw [hrest, pagesClash_succ_iff hpn]
        intro hclash
        refine hconf (pageConflict_of_both hwf1 hS1 ?_)
        rwa [hboth, hversions]

theorem scanList_none_iff {check : State → VPtr → Option Err × State} (J : State → Prop)
    (P : VPtr → Prop) (vs : List VPtr) (hkeep : ∀ st v, J st → J (check st v).2)
    (hcheck : ∀ st, J st → ∀ v ∈ vs, (check st v).1 = none ↔ P v) (hst : J st) :
    (scanList check vs st).1 = none ↔ ∀ v ∈ vs, P v := by
  induction vs generalizing st with
  | nil => simp [scanList]
  | cons v vs ih =>
    have hv := hcheck st hst v List.mem_cons_self
    have hrest := ih (fun st hst w hw => hcheck st hst w (List.mem_cons_of_mem v hw)) (hkeep st v hst)
    rw [scanList, List.forall_mem_cons, ← hv]
    generalize check st v = r at *
    obtain ⟨_ | e, st1⟩ := r
    · simpa using hrest
    · simp

theorem shallow_succ_iff {dir : VPtr} {fuel : Nat} : Shallow st S dir (fuel + 1) ↔
    ∀ slot name child, Lists st S dir slot name child → isDir st child = true →
      Shallow st S child fuel := by
  constructor
  · intro h slot name child hl hdir n d hbelow
    exact Nat.lt_of_succ_lt_succ (h (n + 1) d (.down dir slot child name n d hl hdir hbelow))
  · intro h n d hbelow
    cases hbelow with
    | here => exact Nat.succ_pos fuel
    | down _ slot child name n _ hl hdir hbelow =>
      exact Nat.succ_lt_succ (h slot name child hl hdir n d hbelow)

theorem clash_iff {dir : VPtr} : Clash st S dir ↔ ∃ slot name child, Lists st S dir slot name child ∧
    ((∃ f, st.nodes child = some (.file f) ∧ PagesClash st S child (scanCount st S f) 0) ∨
      isDir st child = true ∧ Clash st S child) := by
  constructor
  · rintro ⟨n, d, slot, name, file, f, lp, pn, hbelow, hl, hf, hlp, hsome, hpn, hboth⟩
    cases hbelow with
    | here =>
      exact ⟨slot, name, file, hl, .inl ⟨f, hf, lp, pn, Nat.zero_le _, by omega,
        fun l _ h => hsome l h, hpn, hboth⟩⟩
    | down _ slot' child name' n _ hl' hc hbelow =>
      exact ⟨slot', name', child, hl', .inr ⟨hc, n, d, slot, name, file, f, lp, pn, hbelow, hl, hf,
        hlp, hsome, hpn, hboth⟩⟩
  · rintro ⟨slot, name, child, hl, ⟨f, hf, lp, pn, -, hlt, hsome, hpn, hboth⟩ | ⟨hc, hclash⟩⟩
    · exact ⟨0, dir, slot, name, child, f, lp, pn, .here dir, hl, hf, by omega,
        fun l h => hsome l (Nat.zero_le _) h, hpn, hboth⟩
    · obtain ⟨n, d, slot', name', file, f, lp, pn, hbelow, hrest⟩ := hclash
      exact ⟨n + 1, d, slot', name', file, f, lp, pn, .down dir slot child name n d hl hc hbelow, hrest⟩

theorem lists_child_eq {dir slot child child' : VPtr} {name name' : Name}
    (h : Lists st S dir slot name child) (h' : Lists st S dir slot name' child') : child' = child := by
  obtain ⟨-, dc, -, -, hdc, -, rfl⟩ := h
  obtain ⟨-, dc', -, -, hdc', -, rfl⟩ := h'
  rw [hdc] at hdc'
  cases hdc'
  rfl

/-- What the scan makes of a slot, in a state it has come to: the slot shows nothing, a directory, or a
file. -/
theorem scanSlot_cases (hwf : Wf st) (hS : Active st S) (h : ScanState st st1) {dir slot : VPtr}
    {d : DirNode} (hd : st.nodes dir = some (.dir d)) (hmem : slot ∈ d.slotList)
    (dirScan : State → VPtr → Option Err × State) :
    ((∀ name child, ¬ Lists st S dir slot name child) ∧ (scanSlot S dirScan st1 slot).1 = none) ∨
    ∃ name child, Lists st S dir slot name child ∧
      (isDir st child = true ∧ scanSlot S dirScan st1 slot = dirScan st1 child ∨
        ∃ f, st.nodes child = some (.file f) ∧ ScanDone (scanSlot S dirScan st1 slot).1 ∧
          ((scanSlot S dirScan st1 slot).1 = none ↔
            ¬ PagesClash st S child (scanCount st S f) 0)) := by
  have hframe := h.edits.frame hwf S
  have hd1 := ((FileEdits.dirsKept h.edits).dirs dir d).2 hd
  by_cases hshow : ∃ name child, Lists st S dir slot name child
  · obtain ⟨name, child, hl⟩ := hshow
    refine .inr ⟨name, child, hl, ?_⟩
    rw [scanSlot_lists ((lists_iff_frame hframe).2 hl)]
    rcases hn : st.nodes child with _ | c | g
    · have hsome := lists_child_isSome hwf.dir hl
      simp [hn] at hsome
    · rw [((FileEdits.dirsKept h.edits).dirs child c).2 hn]
      exact .inl ⟨by simp [isDir, hn], rfl⟩
    · obtain ⟨g', hg', hsizes⟩ := (h.edits.keeps hwf.file).sizes child g hn
      have hwf1 := h.edits.wf hwf
      have hcount : scanCount st1 S g' = scanCount st S g := by
        rw [scanCount, scanCount, sizechainGet, sizechainGet, hsizes,
          (FileEdits.dirsKept h.edits).table, (h.edits.keeps hwf.file).pageSize]
      rw [hg']
      refine .inr ⟨g, rfl, scanPages_done _ _ _, ?_⟩
      dsimp only
      rw [scanPages_none_iff _ 0 hwf1 (hS.kept (FileEdits.dirsKept h.edits)) hg'
        (scanCount_segs hwf1.file.pagesWf hg' S), h.pagesClash_iff, hcount]
  · refine .inl ⟨fun name child hl => hshow ⟨name, child, hl⟩, ?_⟩
    rw [scanSlot]
    split
    · rename_i dc hdc
      split
      · rfl
      · rename_i hname
        obtain ⟨name, hname⟩ := Option.ne_none_iff_exists'.1 hname
        have hl1 : Lists st1 S dir slot name dc.childPtr := ⟨d, dc, hd1, hmem, hdc, hname, rfl⟩
        exact absurd ⟨name, dc.childPtr, (lists_iff_frame hframe).1 hl1⟩ hshow
    · rfl

/-- The scan finds nothing to report for what the slot shows: a directory that is not too deep and a
file, both without a clash. -/
def SlotClean (st : State) (S : Int) (fuel : Nat) (dir slot : VPtr) : Prop :=
  ∀ name child, Lists st S dir slot name child →
    (isDir st child = true → Shallow st S child fuel ∧ ¬ Clash st S child) ∧
      ∀ f, st.nodes child = some (.file f) → ¬ PagesClash st S child (scanCount st S f) 0

theorem slotClean_iff {fuel : Nat} {dir : VPtr} {d : DirNode} (hd : st.nodes dir = some (.dir d)) :
    (∀ slot ∈ d.slotList, SlotClean st S fuel dir slot) ↔
      Shallow st S dir (fuel + 1) ∧ ¬ Clash st S dir := by
  rw [shallow_succ_iff, clash_iff]
  constructor
  · intro h
    have hmem : ∀ slot name child, Lists st S dir slot name child → slot ∈ d.slotList := by
      rintro slot name child ⟨d₀, dc, hd₀, hmem, -⟩
      obtain rfl : d = d₀ := by simpa [hd] using hd₀
      exact hmem
    refine ⟨fun slot name child hl hc => ((h slot (hmem slot name child hl) name child hl).1 hc).1, ?_⟩
    rintro ⟨slot, name, child, hl, ⟨f, hf, hpages⟩ | ⟨hc, hclash⟩⟩
    · exact (h slot (hmem slot name child hl) name child hl).2 f hf hpages
    · exact ((h slot (hmem slot name child hl) name child hl).1 hc).2 hclash
  · rintro ⟨hsh, hno⟩ slot - name child hl
    exact ⟨fun hc => ⟨hsh slot name child hl hc, fun hclash =>
        hno ⟨slot, name, child, hl, .inr ⟨hc, hclash⟩⟩⟩,
      fun f hf hpages => hno ⟨slot, name, child, hl, .inl ⟨f, hf, hpages⟩⟩⟩

theorem commitScanDir_slots {fuel : Nat} {dir : VPtr} {d : DirNode} (hst : ScanState st st1)
    (hd : st.nodes dir = some (.dir d)) : commitScanDir S (fuel + 1) st1 dir =
      scanList (scanSlot S (commitScanDir S fuel)) d.slotList st1 := by
  simp only [commitScanDir, ((FileEdits.dirsKept hst.edits).dirs dir d).2 hd]

theorem ScanState.slot (hwf : Wf st) (h : ScanState st st1) (fuel : Nat) (slot : VPtr) :
    ScanState st (scanSlot S (commitScanDir S fuel) st1 slot).2 :=
  h.trans ⟨scanSlot_edits S fuel st1 slot (h.edits.wf hwf).file.pagesWf,
    scanSlot_rel (fun _ => .of_nodes rfl rfl rfl) scanCount_samePages
      (commitScanDir_rel (fun _ => .of_nodes rfl rfl rfl) .trans scanCount_samePages fuel) st1 slot⟩

theorem scanSlot_none_iff {fuel : Nat} (hwf : Wf st) (hS : Active st S) (h : ScanState st st1)
    {dir slot : VPtr} {d : DirNode} (hd : st.nodes dir = some (.dir d)) (hmem : slot ∈ d.slotList)
    (hscan : ∀ child, isDir st child = true →
      ((commitScanDir S fuel st1 child).1 = none ↔ Shallow st S child fuel ∧ ¬ Clash st S child)) :
    (scanSlot S (commitScanDir S fuel) st1 slot).1 = none ↔ SlotClean st S fuel dir slot := by
  obtain ⟨hno, hnone⟩ | ⟨name, child, hl, ⟨hc, heq⟩ | ⟨f, hf, -, hiff⟩⟩ :=
    scanSlot_cases hwf hS h hd hmem (commitScanDir S fuel)
  · exact iff_of_true hnone fun name child hl => absurd hl (hno name child)
  · rw [heq, hscan child hc]
    obtain ⟨c, hn⟩ := isDir_iff.1 hc
    constructor
    · intro hboth name' child' hl'
      rw [lists_child_eq hl hl']
      exact ⟨fun _ => hboth, fun f hf => by simp [hn] at hf⟩
    · exact fun hall => (hall name child hl).1 hc
  · rw [hiff]
    constructor
    · intro hno name' child' hl'
      rw [lists_child_eq hl hl']
      refine ⟨fun hc => by simp [isDir, hf] at hc, fun f' hf' => ?_⟩
      obtain rfl : f = f' := by simpa [hf] using hf'
      exact hno
    · exact fun hall => (hall name child hl).2 f hf

/-- The scan succeeds exactly if the tree is not too deep and it comes to no page that was written at
both sides. -/
theorem commitScanDir_none_iff (fuel : Nat) (hwf : Wf st) (hS : Active st S) (dir : VPtr)
    (hst : ScanState st st1) (hdir : isDir st dir = true) :
    (commitScanDir S fuel st1 dir).1 = none ↔ Shallow st S dir fuel ∧ ¬ Clash st S dir := by
  induction fuel generalizing st1 dir with
  | zero =>
    refine iff_of_false (by simp [commitScanDir]) fun h => ?_
    exact Nat.lt_irrefl 0 (h.1 0 dir (.here dir))
  | succ fuel ih =>
    obtain ⟨d, hd⟩ := isDir_iff.1 hdir
    rw [commitScanDir_slots hst hd, ← slotClean_iff hd]
    exact scanList_none_iff (ScanState st) (SlotClean st S fuel dir) d.slotList
      (fun _ slot h => h.slot hwf fuel slot)
      (fun _ h slot hmem => scanSlot_none_iff hwf hS h hd hmem fun child hc => ih child h hc) hst

/-! ## Resolving a snapshot -/

theorem vfsCommit_ok_iff (hwf : Wf st) (hS : Active st S) (hroot : isDir st st.root = true) :
    (vfsCommit st S).1 = .ok () ↔ (∀ r ∈ st.mapper, r.toEpoch ≠ st.currentEpoch) ∧
      Shallow st S st.root commitScanMaxDepth ∧ ¬ Clash st S st.root := by
  obtain ⟨hodd, hres⟩ := hS.check_mapper hwf.epoch
  have hscan := commitScanDir_none_iff commitScanMaxDepth hwf hS st.root (.start st) hroot
  have hedits := commitScanDir_edits S commitScanMaxDepth st st.root hwf.file.pagesWf
  rw [vfsCommit, if_neg hodd, if_neg (by simpa using hres),
    Issued.odd_u32 hwf.epoch hS.1 hS.2.1 hS.2.2.1, ← hscan]
  generalize commitScanDir S commitScanMaxDepth st st.root = r at *
  obtain ⟨_ | e, st1⟩ := r
  · have hkept := FileEdits.dirsKept hedits
    have hep1 := hkept.epochWf hwf.epoch
    have hadd := addMapping_isSome_iff hep1 hS.1 (hS.kept hkept).2.2.2 hep1.head_even true
    rw [hkept.mapper, hkept.epoch] at hadd
    dsimp only at hkept ⊢
    rw [hep1.u32_issued (.inl rfl), hkept.epoch, ← hadd]
    cases addMapping st1 ⟨S, st.currentEpoch, true⟩ with
    | none => simp
    | some st2 => simp
  · simp

theorem NoPageAtBoth.no_clash {dir : VPtr} (h : NoPageAtBoth st S) : ¬ Clash st S dir := by
  rintro ⟨n, d, slot, name, file, f, lp, pn, -, -, -, -, -, hpn, hboth⟩
  exact h file lp pn hpn hboth

theorem isDir_isSome {v : VPtr} (h : isDir st v = true) : (st.nodes v).isSome := by
  rw [isDir] at h
  split at h
  · simp [*]
  · cases h

theorem Outcome.root_eq {op : Op} (h : Outcome st op st') (hwf : Wf st) : st'.root = st.root := by
  cases h with
  | same => rfl
  | dir _ epoch _ _ _ hw h => exact (h.keeps hwf.epoch hw hwf.dir).same.root
  | write _ epoch _ _ hw h => exact (h.keeps hwf.epoch hw hwf.file).kept.root
  | read _ _ h => exact (FileEdits.dirsKept h).root
  | snapshot hlt => rfl
  | commit S st1 _ h hm => rw [hm.move.root, (FileEdits.dirsKept h).root]
  | delete S _ hm => exact hm.move.root

theorem Outcome.root {op : Op} (h : Outcome st op st') (hwf : Wf st)
    (hroot : isDir st st.root = true) : isDir st' st'.root = true := by
  rw [h.root_eq hwf]
  have hsome := isDir_isSome hroot
  cases h with
  | same => exact hroot
  | dir _ epoch _ _ _ hw h => rw [(h.keeps hwf.epoch hw hwf.dir).grow.isDir hsome, hroot]
  | write _ epoch _ _ hw h =>
    rw [((h.keeps hwf.epoch hw hwf.file).kept.grow hwf.dir).isDir hsome, hroot]
  | read _ _ h => rw [((FileEdits.dirsKept h).grow hwf.dir).isDir hsome, hroot]
  | snapshot hlt => exact hroot
  | commit S st1 _ h hm =>
    rw [isDir, hm.move.nodes, ← isDir, ((FileEdits.dirsKept h).grow hwf.dir).isDir hsome, hroot]
  | delete S _ hm => rwa [isDir, hm.move.nodes, ← isDir]

theorem reachable_root {pageSize segmentSize : Nat} (hp : 0 < pageSize) (hs : 0 < segmentSize)
    {ops : List Op} (h : Run.AllSteps step ValidOp (bootstrap pageSize segmentSize) ops) :
    Wf (run (bootstrap pageSize segmentSize) ops) ∧
      isDir (run (bootstrap pageSize segmentSize) ops)
        (run (bootstrap pageSize segmentSize) ops).root = true :=
  Run.invariant (fun st => Wf st ∧ isDir st st.root = true)
    (fun _ _ hinv hop => ⟨step_wf hinv.1 hop, (step_outcome hinv.1 hop).root hinv.1 hinv.2⟩)
    ⟨bootstrap_wf hp hs, rfl⟩ h

theorem reachable_root_eq {pageSize segmentSize : Nat} (hp : 0 < pageSize) (hs : 0 < segmentSize)
    {ops : List Op} (h : Run.AllSteps step ValidOp (bootstrap pageSize segmentSize) ops) :
    (run (bootstrap pageSize segmentSize) ops).root = 1 :=
  (Run.invariant (fun st => Wf st ∧ st.root = 1)
    (fun _ _ hinv hop => ⟨step_wf hinv.1 hop, ((step_outcome hinv.1 hop).root_eq hinv.1).trans hinv.2⟩)
    ⟨bootstrap_wf hp hs, rfl⟩ h).2

/-- **Resolving a snapshot.** In a volume reached by valid operations, an active snapshot `S` can be
soft-deleted exactly if no row maps to `S - 1`. If no page of any file was written both at `S` and
at a later head, it can be committed exactly if no row maps to the head and the directories that `S`
shows are fewer than 64 levels deep. -/
theorem snapshot_resolvable_iff {pageSize segmentSize : Nat} (hp : 0 < pageSize)
    (hs : 0 < segmentSize) (ops : List Op)
    (hops : Run.AllSteps step ValidOp (bootstrap pageSize segmentSize) ops) (S : Int)
    (hS : Active (run (bootstrap pageSize segmentSize) ops) S) :
    let st := run (bootstrap pageSize segmentSize) ops
    ((vfsDeleteSnapshot st S).1 = .ok () ↔ ∀ r ∈ st.mapper, r.toEpoch ≠ S - 1) ∧
      (NoPageAtBoth st S → ((vfsCommit st S).1 = .ok () ↔
        (∀ r ∈ st.mapper, r.toEpoch ≠ st.currentEpoch) ∧
          Shallow st S st.root commitScanMaxDepth)) := by
  obtain ⟨hwf, hroot⟩ := reachable_root hp hs hops
  refine ⟨vfsDeleteSnapshot_ok_iff hwf.epoch hS, fun hno => ?_⟩
  rw [vfsCommit_ok_iff hwf hS hroot, and_iff_left hno.no_clash]

theorem noPageAtBoth_of_all (hwf : FileWf st)
    (h : ∀ pn < st.nextVp, ¬ WrittenAtBoth st S (versionsOf st pn)) : NoPageAtBoth st S := by
  intro file lp pn hpn
  refine h pn (Nat.lt_of_not_le fun hge => ?_)
  have hsome := hwf.pagesWf.pageNode_isSome hpn
  simp [hwf.pn_fresh pn hge] at hsome

/-- `Shallow`, by going down. -/
def shallowCheck (st : State) (S : Int) : Nat → VPtr → Bool
  | 0, _ => false
  | n + 1, dir =>
    match st.nodes dir with
    | some (.dir d) => d.slotList.all fun v =>
      match visibleEntry st S v with
      | some dc => dc.name.isNone || !isDir st dc.childPtr || shallowCheck st S n dc.childPtr
      | none => true
    | _ => true

theorem shallow_of_check {n : Nat} {dir : VPtr} (h : shallowCheck st S n dir = true) : Shallow st S dir n := by
  induction n generalizing dir with
  | zero => cases h
  | succ n ih =>
    refine shallow_succ_iff.2 fun slot name child hl hdir => ?_
    obtain ⟨d, dc, hd, hmem, hdc, hname, rfl⟩ := hl
    simp only [shallowCheck, hd, List.all_eq_true] at h
    have := h slot hmem
    simp only [hdc, hname, hdir] at this
    exact ih (by simpa using this)

/-- Nested directories with a file. Of three snapshots the first is soft-deleted and the second
committed, and the file is written at the third. -/
def thirdSnapshot : List Op :=
  [.mkdir 1 [100] 0, .mkdir 2 [101] 0, .create 5 [102] 0, .write 8 [1] 0 0, .snapshot, .snapshot, .snapshot,
    .deleteSnapshot 1, .commit 3, .snapshot, .write 8 [2] 0 5]

/-- The third snapshot can be resolved either way. -/
theorem third_snapshot_resolvable :
    let st := run (bootstrap 8192 1024) thirdSnapshot
    (vfsDeleteSnapshot st 5).1 = .ok () ∧ (vfsCommit st 5).1 = .ok () := by
  have hvalid : Run.AllSteps step ValidOp (bootstrap 8192 1024) thirdSnapshot := by decide +kernel
  have hwf := reachable_wf (by decide) (by decide) hvalid
  have hiff := snapshot_resolvable_iff (by decide) (by decide) thirdSnapshot hvalid 5
    ⟨by decide, by decide, by decide +kernel, by unfold Unmapped; decide +kernel⟩
  refine ⟨hiff.1.2 (by decide +kernel), (hiff.2 (noPageAtBoth_of_all hwf.file ?_)).2
    ⟨by decide +kernel, shallow_of_check (by decide +kernel)⟩⟩
  unfold WrittenAtBoth AtLaterHead
  decide +kernel

/-- Snapshot `1` is committed at head `2`; then the soft-delete of snapshot `3`, whose base is `2`,
is refused. With both snapshots taken first, the commit of `1` at head `4` makes that of `3`
impossible. No file exists in either case. -/
theorem earlier_commit_blocks_snapshot :
    (let ops : List Op := [.snapshot, .commit 1, .snapshot]
     let st := run (bootstrap 8192 1024) ops
     Run.AllSteps step ValidOp (bootstrap 8192 1024) ops ∧ Active st 3 ∧
       (vfsDeleteSnapshot st 3).1 = .error .alreadyExists) ∧
    (let ops : List Op := [.snapshot, .snapshot, .commit 1]
     let st := run (bootstrap 8192 1024) ops
     Run.AllSteps step ValidOp (bootstrap 8192 1024) ops ∧ Active st 3 ∧ NoPageAtBoth st 3 ∧
       (vfsCommit st 3).1 = .error .alreadyExists) := by
  have hfirst : Run.AllSteps step ValidOp (bootstrap 8192 1024) [.snapshot, .commit 1, .snapshot] := by
    decide +kernel
  have hboth : Run.AllSteps step ValidOp (bootstrap 8192 1024) [.snapshot, .snapshot, .commit 1] := by
    decide +kernel
  refine ⟨⟨hfirst, ⟨by decide, by decide, by decide +kernel, by unfold Unmapped; decide +kernel⟩, rfl⟩,
    hboth, ⟨by decide, by decide, by decide +kernel, by unfold Unmapped; decide +kernel⟩,
    noPageAtBoth_of_all (reachable_wf (by decide) (by decide) hboth).file ?_, rfl⟩
  unfold WrittenAtBoth AtLaterHead
  decide +kernel

end SphereVFS
