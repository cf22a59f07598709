import SphereVFS.Isolation
import SphereVFS.Namespace

/-!
# SphereVFS.CommitEffect

What a commit does to the view of the head, and when it is refused.

The commit adds one row to the mapper, so that the entries of the snapshot count at the head. A
chain (of an entry, a size or a page) with entries of the snapshot and none of a later head then
shows at the head what it showed at the snapshot, and a chain without entries of the snapshot shows
what it did. The scan before it compares pages only: it refuses the commit when a page that it
reaches was written at both.
-/

namespace SphereVFS

variable {st st' st1 : State} {S R : Int} {file : VPtr} {f : FileNode} {lp : Nat}

/-- The view of the head after a commit of `S`, chain by chain. -/
structure CommitView (st : State) (S : Int) (st' : State) : Prop where
  entry_written : ∀ v s, st.slots v = some s → (∃ dc ∈ s.chain, dc.epoch = S) →
    (∀ dc ∈ s.chain, ¬ AtLaterHead st S dc.epoch) →
    visibleEntry st' st.currentEpoch v = visibleEntry st S v
  entry_kept : ∀ v s, st.slots v = some s → (∀ dc ∈ s.chain, dc.epoch ≠ S) →
    visibleEntry st' st.currentEpoch v = visibleEntry st st.currentEpoch v
  size_written : ∀ file f, st.nodes file = some (.file f) → (∃ s ∈ f.sizes, s.epoch = S) →
    (∀ s ∈ f.sizes, ¬ AtLaterHead st S s.epoch) →
    vfsFileSize st' file st.currentEpoch = vfsFileSize st file S
  size_kept : ∀ file f, st.nodes file = some (.file f) → (∀ s ∈ f.sizes, s.epoch ≠ S) →
    vfsFileSize st' file st.currentEpoch = vfsFileSize st file st.currentEpoch
  page_written : ∀ file lp pn, pageNodeOf st file lp = some pn →
    (∃ v ∈ versionsOf st pn, v.epoch = S) → (∀ v ∈ versionsOf st pn, ¬ AtLaterHead st S v.epoch) →
    pageView st' st.currentEpoch file lp = pageView st S file lp
  page_kept : ∀ file lp, (∀ pn, pageNodeOf st file lp = some pn →
    ∀ v ∈ versionsOf st pn, v.epoch ≠ S) →
    pageView st' st.currentEpoch file lp = pageView st st.currentEpoch file lp

theorem versionsOf_some {pn : VPtr} {n : PageNode} (h : st.pageNodes pn = some n) :
    versionsOf st pn = n.versions := by
  simp only [versionsOf, h]

theorem Mapped.pageView (hm : Mapped st S st.currentEpoch true st') (hR : ∀ pn,
      pageNodeOf st file lp = some pn →
      chainWalk VersionPage.epoch st'.mapperTable st.currentEpoch (versionsOf st pn) =
        chainWalk VersionPage.epoch st.mapperTable R (versionsOf st pn)) :
    pageView st' st.currentEpoch file lp = pageView st R file lp := by
  rw [SphereVFS.pageView, SphereVFS.pageView, hm.move.pageNodeOf]
  cases hpn : SphereVFS.pageNodeOf st file lp with
  | none => rfl
  | some pn =>
    refine versionBytes_same ?_ fun v _ => by rw [hm.move.data]
    rw [visibleVersion, visibleVersion, hm.move.pageNodes]
    cases hn : st.pageNodes pn with
    | none => rfl
    | some n =>
      have h := hR pn hpn
      rwa [versionsOf_some hn] at h

theorem FileWf.versionsOf_range (hwf : FileWf st) (pn : VPtr) :
    ∀ v ∈ versionsOf st pn, 0 ≤ v.epoch ∧ v.epoch ≤ st.currentEpoch := by
  intro v hv
  cases hn : st.pageNodes pn with
  | none => simp [versionsOf, hn] at hv
  | some n =>
    rw [versionsOf_some hn] at hv
    obtain ⟨h0, hle, -⟩ := hwf.version pn n hn v hv
    exact ⟨h0, hle⟩

theorem Mapped.commitView (hm : Mapped st S st.currentEpoch true st') (hwf : Wf st) :
    CommitView st S st' where
  entry_written := by
    intro v s hs _ hlater
    simp only [visibleEntry, hm.move.slots, hs]
    exact hm.walk_written hwf (hwf.dir.entry_epoch v s hs) hlater
  entry_kept := by
    intro v s hs hne
    simp only [visibleEntry, hm.move.slots, hs]
    exact hm.walk_kept hwf (hwf.dir.entry_epoch v s hs) hne
  size_written := by
    intro file f hf _ hlater
    simp only [vfsFileSize, hm.move.nodes, hf, hm.resolve_head hwf,
      hwf.epoch.resolve_writable (.inr hm.active), sizechainGet,
      hm.walk_written hwf (hwf.file.size_epoch file f hf) hlater]
  size_kept := by
    intro file f hf hne
    simp only [vfsFileSize, hm.move.nodes, hf, hm.resolve_head hwf,
      hwf.epoch.resolve_writable (.inl rfl), sizechainGet,
      hm.walk_kept hwf (hwf.file.size_epoch file f hf) hne]
  page_written := by
    intro file lp pn hpn _ hlater
    refine hm.pageView fun pn' hpn' => ?_
    obtain rfl : pn = pn' := by simpa [hpn] using hpn'
    exact hm.walk_written hwf (hwf.file.versionsOf_range pn) hlater
  page_kept := by
    intro file lp hne
    exact hm.pageView fun pn hpn => hm.walk_kept hwf (hwf.file.versionsOf_range pn) (hne pn hpn)

theorem FileEdits.vfsFileSize (hedits : FileEdits st st1) (hwf : Wf st) (v : VPtr) (e : Int) :
    vfsFileSize st1 v e = vfsFileSize st v e := by
  have hkept := FileEdits.dirsKept hedits
  match hn : st.nodes v with
  | some (.file f) =>
    obtain ⟨f', hf', hs⟩ := (hedits.keeps hwf.file).sizes v f hn
    simp only [SphereVFS.vfsFileSize, hn, hf', hkept.table, sizechainGet, hs]
  | some (.dir d) => simp only [SphereVFS.vfsFileSize, hn, (hkept.dirs v d).2 hn]
  | none => simp only [SphereVFS.vfsFileSize, hn, (hkept.none v).2 hn]

theorem CommitView.of_edits (h : CommitView st1 S st') (hedits : FileEdits st st1) (hwf : Wf st) :
    CommitView st S st' := by
  have hkept := FileEdits.dirsKept hedits
  have hkeep := hedits.keeps hwf.file
  have hlater : ∀ e, AtLaterHead st1 S e ↔ AtLaterHead st S e := by
    intro e
    rw [AtLaterHead, AtLaterHead, hkept.table]
  have hsize := hedits.vfsFileSize hwf
  constructor
  · intro v s hs hw hl
    rw [← hkept.epoch, h.entry_written v s (by rwa [hkept.slots]) hw
      fun dc hdc => (hlater _).not.2 (hl dc hdc)]
    exact hkept.entries S v
  · intro v s hs hne
    rw [← hkept.epoch, h.entry_kept v s (by rwa [hkept.slots]) hne]
    exact hkept.entries _ v
  · intro file f hf hw hl
    obtain ⟨f', hf', hs⟩ := hkeep.sizes file f hf
    rw [← hkept.epoch, h.size_written file f' hf' (by rwa [hs])
      (by rw [hs]; exact fun s hs => (hlater _).not.2 (hl s hs)), hsize]
  · intro file f hf hne
    obtain ⟨f', hf', hs⟩ := hkeep.sizes file f hf
    rw [← hkept.epoch, h.size_kept file f' hf' (by rwa [hs]), hsize]
  · intro file lp pn hpn hw hl
    have hpn1 := FileEdits.keeps_page hedits hwf.file.pagesWf hpn
    have hv : versionsOf st1 pn = versionsOf st pn := by
      obtain ⟨-, hv⟩ | ⟨hnone, -⟩ := FileEdits.versions hedits hwf.file hpn1
      · exact hv
      · simp [hpn] at hnone
    rw [← hkept.epoch, h.page_written file lp pn hpn1 (by rwa [hv])
      (by rw [hv]; exact fun v hv => (hlater _).not.2 (hl v hv)), hkeep.view]
  · intro file lp hne
    rw [← hkept.epoch, h.page_kept file lp ?_, hkeep.view]
    intro pn hpn1
    obtain ⟨hpn, hv⟩ | ⟨-, hv⟩ := FileEdits.versions hedits hwf.file hpn1
    · rw [hv]
      exact hne pn hpn
    · simp [hv]

/-! ## The scan -/

/-- `DirBelow st S dir n d`: `d` is a directory `n` levels below `dir` in the view of `S`. -/
inductive DirBelow (st : State) (S : Int) : VPtr → Nat → VPtr → Prop
  | here (dir : VPtr) : DirBelow st S dir 0 dir
  | down (dir slot child : VPtr) (name : Name) (n : Nat) (d : VPtr)
      (hl : Lists st S dir slot name child) (hdir : isDir st child = true)
      (h : DirBelow st S child n d) : DirBelow st S dir (n + 1) d

def WrittenAtBoth (st : State) (S : Int) (versions : List VersionPage) : Prop :=
  (∃ v ∈ versions, v.epoch = S) ∧ ∃ v ∈ versions, AtLaterHead st S v.epoch

/-- A page below `dir` that the scan comes to: it is below the size at `S` (or the first page) of a
file that `S` shows, with a node at every page before it. -/
def Clash (st : State) (S : Int) (dir : VPtr) : Prop :=
  ∃ n d slot name file f lp pn, DirBelow st S dir n d ∧ Lists st S d slot name file ∧
    st.nodes file = some (.file f) ∧ lp < scanCount st S f ∧
    (∀ l < lp, (pageNodeOf st file l).isSome) ∧ pageNodeOf st file lp = some pn ∧
    WrittenAtBoth st S (versionsOf st pn)

/-- No directory is `fuel` levels below `dir`. -/
def Shallow (st : State) (S : Int) (dir : VPtr) (fuel : Nat) : Prop :=
  ∀ n d, DirBelow st S dir n d → n < fuel

theorem DirBelow.edits {dir d : VPtr} {n : Nat} (h : DirBelow st S dir n d) (hwf : Wf st)
    (hedits : FileEdits st st1) : DirBelow st1 S dir n d := by
  have hframe := hedits.frame hwf S
  induction h with
  | here dir => exact .here dir
  | down dir slot child name n d hl hdir _ ih =>
    refine .down dir slot child name n d ((lists_iff_frame hframe).2 hl) ?_ ih
    rwa [hframe.grow.isDir (lists_child_isSome hwf.dir hl)]

theorem DirBelow.of_edits {dir d : VPtr} {n : Nat} (h : DirBelow st1 S dir n d) (hwf : Wf st)
    (hedits : FileEdits st st1) : DirBelow st S dir n d := by
  have hframe := hedits.frame hwf S
  induction h with
  | here dir => exact .here dir
  | down dir slot child name n d hl hdir _ ih =>
    have hl' := (lists_iff_frame hframe).1 hl
    refine .down dir slot child name n d hl' ?_ ih
    rwa [hframe.grow.isDir (lists_child_isSome hwf.dir hl')] at hdir

theorem FileEdits.versionsOf (hedits : FileEdits st st1) (hwf : FileWf st) {pn : VPtr}
    (hpn : pageNodeOf st file lp = some pn) : versionsOf st1 pn = versionsOf st pn := by
  obtain ⟨-, hv⟩ | ⟨hnone, -⟩ :=
    FileEdits.versions hedits hwf (FileEdits.keeps_page hedits hwf.pagesWf hpn)
  · exact hv
  · simp [hpn] at hnone

theorem Clash.edits {dir : VPtr} (h : Clash st S dir) (hwf : Wf st) (hedits : FileEdits st st1) :
    Clash st1 S dir := by
  obtain ⟨n, d, slot, name, file, f, lp, pn, hbelow, hl, hf, hlp, hsome, hpn, hboth⟩ := h
  have hkept := FileEdits.dirsKept hedits
  obtain ⟨f', hf', hs⟩ := (hedits.keeps hwf.file).sizes file f hf
  refine ⟨n, d, slot, name, file, f', lp, pn, hbelow.edits hwf hedits,
    (lists_iff_frame (hedits.frame hwf S)).2 hl, hf', ?_, ?_,
    FileEdits.keeps_page hedits hwf.file.pagesWf hpn, ?_⟩
  · rwa [scanCount, sizechainGet, hs, hkept.table, (hedits.keeps hwf.file).pageSize]
  · intro l hl
    obtain ⟨pn', hpn'⟩ := Option.isSome_iff_exists.1 (hsome l hl)
    simp [FileEdits.keeps_page hedits hwf.file.pagesWf hpn']
  · rw [hedits.versionsOf hwf.file hpn]
    simpa only [WrittenAtBoth, AtLaterHead, hkept.table] using hboth

theorem Active.kept (h : Active st S) (hkept : DirsKept st st1) : Active st1 S := by
  simpa only [Active, hkept.epoch, hkept.table] using h

theorem pageConflict_of_both (hwf : Wf st) (hS : Active st S) {versions : List VersionPage}
    (h : WrittenAtBoth st S versions) : pageConflict st.mapperTable S versions = true := by
  obtain ⟨⟨v, hv, rfl⟩, w, hw, hlater⟩ := h
  have heff : effEpoch st.mapperTable v.epoch = v.epoch := by
    apply effEpoch_unmapped
    rw [hwf.epoch.u32_issued (.inr ⟨hS.1, hS.2.1, hS.2.2.1⟩)]
    exact hS.2.2.2
  rw [pageConflict, Bool.and_eq_true, List.any_eq_true, List.any_eq_true]
  refine ⟨⟨v, hv, by simp [heff]⟩, w, hw, ?_⟩
  simpa [AtLaterHead] using hlater

def ScanDone (r : Option Err) : Prop := r = none ∨ r = some .conflict

theorem scanPages_done (n page : Nat) (st : State) : ScanDone (scanPages S file n page st).1 := by
  induction n generalizing page st with
  | zero => exact .inl rfl
  | succ n ih =>
    rw [scanPages]
    split
    · exact .inl rfl
    · split
      · exact .inr rfl
      · exact ih _ _

theorem scanPages_conflict (n page : Nat) (hwf : Wf st) (hS : Active st S)
    (hf : st.nodes file = some (.file f)) (hsegs : ∀ l < page + n, l / st.segmentSize < 2 ^ 20)
    (hle : page ≤ lp) (hlt : lp < page + n) (hsome : ∀ l < lp, (pageNodeOf st file l).isSome)
    {pn : VPtr} (hpn : pageNodeOf st file lp = some pn)
    (hboth : WrittenAtBoth st S (versionsOf st pn)) :
    (scanPages S file n page st).1 = some .conflict := by
  induction n generalizing st f page with
  | zero => omega
  | succ n ih =>
    have hres := treeResolvePage_spec hwf.file.pagesWf hf (hsegs page (by omega)) false
    have hkept := FileEdits.dirsKept hres.edits
    have hkeep := hres.edits.keeps hwf.file
    have hwf1 := hres.edits.wf hwf
    obtain ⟨f', hf', -⟩ := hkeep.sizes file f hf
    have hboth1 : WrittenAtBoth (treeResolvePage st file page false).2 S
        (versionsOf (treeResolvePage st file page false).2 pn) := by
      rw [hres.edits.versionsOf hwf.file hpn]
      simpa only [WrittenAtBoth, AtLaterHead, hkept.table] using hboth
    have hnext : page < lp → (scanPages S file n (page + 1)
        (treeResolvePage st file page false).2).1 = some .conflict := by
      intro hlt'
      refine ih (page + 1) hwf1 (hS.kept hkept) hf' ?_ hlt' (by omega) ?_
        (FileEdits.keeps_page hres.edits hwf.file.pagesWf hpn) hboth1
      · intro l hl
        rw [hkeep.segmentSize]
        exact hsegs l (by omega)
      · intro l hl
        obtain ⟨pn', hpn'⟩ := Option.isSome_iff_exists.1 (hsome l hl)
        simp [FileEdits.keeps_page hres.edits hwf.file.pagesWf hpn']
    have hread := hres.read rfl
    rw [scanPages]
    generalize treeResolvePage st file page false = r at *
    obtain ⟨_ | ⟨pn', pinned⟩, st1⟩ := r
    · -- the page has a node, so the scan does not stop here
      have hnone : pageNodeOf st file page = none := hread.symm
      obtain rfl | hlt' := Nat.eq_or_lt_of_le hle
      · simp [hnone] at hpn
      · simpa [hnone] using hsome page hlt'
    · dsimp only at hnext hboth1 ⊢
      split
      · rfl
      · rename_i hno
        obtain rfl | hlt' := Nat.eq_or_lt_of_le hle
        · obtain rfl : pn = pn' := by simpa [hpn] using hread.symm
          exact absurd (pageConflict_of_both hwf1 (hS.kept hkept) hboth1) hno
        · exact hnext hlt'

theorem scanList_conflict (check : State → VPtr → Option Err × State) (J : State → Prop)
    (vs : List VPtr) (hcheck : ∀ st, ∀ v ∈ vs, J st → J (check st v).2 ∧ ScanDone (check st v).1)
    (hst : J st) :
    ScanDone (scanList check vs st).1 ∧
      ((∃ v ∈ vs, ∀ st, J st → (check st v).1 = some .conflict) →
        (scanList check vs st).1 = some .conflict) := by
  induction vs generalizing st with
  | nil => exact ⟨.inl rfl, by simp⟩
  | cons v vs ih =>
    obtain ⟨hJ, hdone⟩ := hcheck st v List.mem_cons_self hst
    obtain ⟨hrest, hconf⟩ := ih (fun st w hw => hcheck st w (List.mem_cons_of_mem v hw)) hJ
    have hv : (∀ st, J st → (check st v).1 = some .conflict) → (check st v).1 = some .conflict :=
      fun h => h st hst
    rw [scanList]
    generalize check st v = r at *
    obtain ⟨_ | e, st1⟩ := r
    · refine ⟨hrest, ?_⟩
      rintro ⟨w, hw, hconf'⟩
      obtain rfl | hw := List.mem_cons.1 hw
      · cases hv hconf'
      · exact hconf ⟨w, hw, hconf'⟩
    · obtain h | h := hdone
      · cases h
      · cases h
        exact ⟨.inr rfl, fun _ => rfl⟩

theorem scanSlot_lists {dirScan : State → VPtr → Option Err × State} {dir slot child : VPtr}
    {name : Name} (hl : Lists st S dir slot name child) :
    scanSlot S dirScan st slot =
      match st.nodes child with
      | some (.dir _) => dirScan st child
      | some (.file f) => scanPages S child (scanCount st S f) 0 st
      | none => (none, st) := by
  obtain ⟨d, dc, -, -, hdc, hname, rfl⟩ := hl
  rcases hn : st.nodes dc.childPtr with _ | ⟨_⟩ | ⟨_⟩ <;> simp [scanSlot, hdc, hname, hn]

theorem scanSlot_done {dirScan : State → VPtr → Option Err × State} {dir : VPtr} {d : DirNode}
    (hd : st.nodes dir = some (.dir d)) {slot : VPtr} (hmem : slot ∈ d.slotList)
    (hscan : ∀ child name, Lists st S dir slot name child → isDir st child = true →
      ScanDone (dirScan st child).1) : ScanDone (scanSlot S dirScan st slot).1 := by
  rw [scanSlot]
  split
  · rename_i dc hdc
    split
    · exact .inl rfl
    rename_i hname
    obtain ⟨name, hname⟩ := Option.ne_none_iff_exists'.1 hname
    split
    · rename_i c hc
      exact hscan dc.childPtr name ⟨d, dc, hd, hmem, hdc, hname, rfl⟩ (by simp [isDir, hc])
    · exact scanPages_done ..
    · exact .inl rfl
  · exact .inl rfl

theorem commitScanDir_conflict (fuel : Nat) (hwf : Wf st) (hS : Active st S) (dir : VPtr)
    (hshallow : Shallow st S dir fuel) :
    ScanDone (commitScanDir S fuel st dir).1 ∧
      (Clash st S dir → (commitScanDir S fuel st dir).1 = some .conflict) := by
  induction fuel generalizing st dir with
  | zero => exact absurd (hshallow 0 dir (.here dir)) (Nat.lt_irrefl 0)
  | succ fuel ih =>
    by_cases hdir : ∃ d, st.nodes dir = some (.dir d)
    · obtain ⟨d, hd⟩ := hdir
      -- what the scan of a subdirectory finds in any state the scan of `dir` gets to
      have hsub : ∀ st1, FileEdits st st1 → ∀ slot child name, Lists st S dir slot name child →
          isDir st child = true → ScanDone (commitScanDir S fuel st1 child).1 ∧
            (Clash st S child → (commitScanDir S fuel st1 child).1 = some .conflict) := by
        intro st1 hedits slot child name hl hc
        have hdone := ih (hedits.wf hwf) (hS.kept (FileEdits.dirsKept hedits)) child
          (fun n d' h => Nat.lt_of_succ_lt_succ
            (hshallow _ _ (.down dir slot child name n d' hl hc (h.of_edits hwf hedits))))
        exact ⟨hdone.1, fun hclash => hdone.2 (hclash.edits hwf hedits)⟩
      have hlist := scanList_conflict (scanSlot S (commitScanDir S fuel))
        (fun st1 => FileEdits st st1) d.slotList (fun st1 v hv hedits => ?_) .refl
      · have heq : commitScanDir S (fuel + 1) st dir =
            scanList (scanSlot S (commitScanDir S fuel)) d.slotList st := by
          simp only [commitScanDir, hd]
        rw [heq]
        refine ⟨hlist.1, fun hclash => hlist.2 ?_⟩
        obtain ⟨n, d', slot, name, file, f, lp, pn, hbelow, hl, hf, hlp, hsome, hpn, hboth⟩ := hclash
        cases hbelow with
        | here =>
          -- a file of this directory
          obtain ⟨d₀, dc, hd₀, hmem, hrest⟩ := hl
          obtain rfl : d = d₀ := by simpa [hd] using hd₀
          refine ⟨slot, hmem, fun st1 hedits => ?_⟩
          have hl1 := (lists_iff_frame (hedits.frame hwf S)).2 ⟨d, dc, hd₀, hmem, hrest⟩
          obtain ⟨f', hf', hs⟩ := (hedits.keeps hwf.file).sizes file f hf
          have hcount : scanCount st1 S f' = scanCount st S f := by
            rw [scanCount, scanCount, sizechainGet, sizechainGet, hs,
              (FileEdits.dirsKept hedits).table, (hedits.keeps hwf.file).pageSize]
          rw [scanSlot_lists hl1, hf']
          refine scanPages_conflict _ 0 (hedits.wf hwf) (hS.kept (FileEdits.dirsKept hedits)) hf'
            (scanCount_segs (hedits.wf hwf).file.pagesWf hf' S) (Nat.zero_le _) (by omega) ?_
            (FileEdits.keeps_page hedits hwf.file.pagesWf hpn) ?_
          · intro l hl
            obtain ⟨pn', hpn'⟩ := Option.isSome_iff_exists.1 (hsome l hl)
            simp [FileEdits.keeps_page hedits hwf.file.pagesWf hpn']
          · rw [hedits.versionsOf hwf.file hpn]
            simpa only [WrittenAtBoth, AtLaterHead, (FileEdits.dirsKept hedits).table] using hboth
        | down _ slot' child name' n _ hl' hc hbelow =>
          -- a file further down, through the slot of a subdirectory
          have hclash : Clash st S child :=
            ⟨n, d', slot, name, file, f, lp, pn, hbelow, hl, hf, hlp, hsome, hpn, hboth⟩
          have hlists := hl'
          obtain ⟨d₀, dc, hd₀, hmem, -⟩ := hl'
          obtain rfl : d = d₀ := by simpa [hd] using hd₀
          refine ⟨slot', hmem, fun st1 hedits => ?_⟩
          have hl1 := (lists_iff_frame (hedits.frame hwf S)).2 hlists
          obtain ⟨c, hc'⟩ : ∃ c, st.nodes child = some (.dir c) := by
            rw [isDir] at hc
            split at hc
            · exact ⟨_, ‹_›⟩
            · cases hc
          rw [scanSlot_lists hl1, ((FileEdits.dirsKept hedits).dirs child c).2 hc']
          exact (hsub st1 hedits slot' child name' hlists hc).2 hclash
      · refine ⟨hedits.trans (scanSlot_edits S fuel st1 v
          (hedits.wf hwf).file.pagesWf), ?_⟩
        refine scanSlot_done (((FileEdits.dirsKept hedits).dirs dir d).2 hd) hv ?_
        intro child name hl hc
        have hl' := (lists_iff_frame (hedits.frame hwf S)).1 hl
        have hc' := hc
        rw [(hedits.frame hwf S).grow.isDir (lists_child_isSome hwf.dir hl')] at hc'
        exact (hsub st1 hedits v child name hl' hc').1
    · have heq : commitScanDir S (fuel + 1) st dir = (none, st) := by
        rw [commitScanDir]
        split
        · rename_i d hd
          exact absurd ⟨d, hd⟩ hdir
        · rfl
      rw [heq]
      refine ⟨.inl rfl, ?_⟩
      rintro ⟨n, d, slot, name, file, f, lp, pn, hbelow, ⟨d₀, dc, hd₀, -⟩, -⟩
      cases hbelow with
      | here => exact absurd ⟨d₀, hd₀⟩ hdir
      | down _ _ _ _ _ _ hl =>
        obtain ⟨d₁, dc₁, hd₁, -⟩ := hl
        exact absurd ⟨d₁, hd₁⟩ hdir

/-! ## The commit -/

structure NothingChanged (st st' : State) : Prop where
  mapper : st'.mapper = st.mapper
  table : st'.mapperTable = st.mapperTable
  head : st'.currentEpoch = st.currentEpoch
  openAt : ∀ v name e, vfsOpen st' v name e = vfsOpen st v name e
  readdir : ∀ v e, vfsReaddir st' v e = vfsReaddir st v e
  fileSize : ∀ v e, vfsFileSize st' v e = vfsFileSize st v e
  read : ∀ v offset count e, (vfsRead st' v offset count e).1 = (vfsRead st v offset count e).1

theorem DirsKept.lookup (h : DirsKept st st1) (v : VPtr) (name : Name) (e : Int) :
    vfsOpen st1 v name e = vfsOpen st v name e := by
  have hcheck : ∀ R slot, checkSlotForName st1 R name slot = checkSlotForName st R name slot := by
    intro R slot
    rw [checkSlotForName, checkSlotForName, h.entries R slot]
  rcases hn : st.nodes v with _ | d | f
  · simp only [vfsOpen, dirchainFindChild, hn, (h.none v).2 hn]
  · simp only [vfsOpen, dirchainFindChild, hn, (h.dirs v d).2 hn, h.table, funext (hcheck _), hcheck]
  · obtain ⟨f', hf'⟩ := h.files v f hn
    simp only [vfsOpen, dirchainFindChild, hn, hf']

theorem FileEdits.nothingChanged (hedits : FileEdits st st1) (hwf : Wf st) :
    NothingChanged st st1 := by
  have hkept := FileEdits.dirsKept hedits
  have hres : ∀ e, resolve st1.mapperTable e = resolve st.mapperTable e := by
    intro e
    rw [hkept.table]
  refine ⟨hkept.mapper, hkept.table, hkept.epoch, hkept.lookup, ?_, ?_, ?_⟩
  · intro v e
    cases hv : st.nodes v with
    | none => simp only [vfsReaddir, hv, (hkept.none v).2 hv]
    | some n => exact vfsReaddir_frame hwf.dir (hedits.frame hwf _) (by simp [hv]) rfl (hres e)
  · exact fun v e => hedits.vfsFileSize hwf v e
  · intro v offset count e
    cases hv : st.nodes v with
    | none =>
      have hsize : SphereVFS.vfsFileSize st v e = -1 := by simp [SphereVFS.vfsFileSize, hv]
      simp only [vfsRead, hedits.vfsFileSize hwf v e, hsize]
      split
      · rfl
      · rw [if_pos (by omega), if_pos (by omega)]
    | some n =>
      exact vfsRead_frame hwf.file (hedits.wf hwf).file (hedits.frame hwf _) (by simp [hv]) rfl
        (hres e) offset count

theorem vfsCommit_conflict (hwf : Wf st) (hS : Active st S)
    (h : (commitScanDir S commitScanMaxDepth st st.root).1 = some .conflict) :
    vfsCommit st S = (.error .conflict, (commitScanDir S commitScanMaxDepth st st.root).2) := by
  obtain ⟨hodd, hpos, hlt, hun⟩ := hS
  have hlt31 := hwf.epoch.head_lt
  have hrows : ∀ r ∈ st.mapper, RowOk st.currentEpoch r :=
    fun r hr => hwf.epoch.rows r ((hwf.epoch.chain r).1 hr)
  have hres : resolve st.mapper S = S := (resolve_eq_self hrows (by omega) (by omega)).2
    fun r hr => hun r ((hwf.epoch.chain r).1 hr)
  rw [vfsCommit, if_neg (by rw [Int.tmod_eq_emod_of_nonneg (by omega)]; omega), if_neg (by simpa using hres),
    Issued.odd_u32 hwf.epoch hodd hpos hlt]
  generalize commitScanDir S commitScanMaxDepth st st.root = r at *
  obtain ⟨_ | e, st1⟩ := r
  · cases h
  · cases h
    rfl

/-- **Commit effect.** In a volume reached by valid operations, a commit of an active snapshot that
succeeds makes every chain written at the snapshot, and at no later head, show at the head what it
showed at the snapshot, and leaves every chain not written at the snapshot as it was. With a page
that was written at both, where the scan comes to it, the commit is refused and nothing changes. -/
theorem commit_effect {pageSize segmentSize : Nat} (hp : 0 < pageSize) (hs : 0 < segmentSize)
    (ops : List Op) (hops : Run.AllSteps step ValidOp (bootstrap pageSize segmentSize) ops)
    (S : Int) (hS : Active (run (bootstrap pageSize segmentSize) ops) S) :
    let st := run (bootstrap pageSize segmentSize) ops
    (∀ st', vfsCommit st S = (.ok (), st') → CommitView st S st') ∧
      (Shallow st S st.root commitScanMaxDepth → Clash st S st.root →
        ∃ st', vfsCommit st S = (.error .conflict, st') ∧ NothingChanged st st') := by
  have hwf := reachable_wf hp hs hops
  revert hwf hS
  generalize run (bootstrap pageSize segmentSize) ops = st
  intro hS hwf
  constructor
  · intro st' hok
    obtain ⟨e, st1, -, herr⟩ | ⟨st1, st2, hedits, hm, hok'⟩ :=
      vfsCommit_cases hwf hS.1 hS.2.1 hS.2.2.1
    · rw [hok] at herr
      cases herr
    · rw [hok] at hok'
      cases hok'
      exact (hm.commitView (hedits.wf hwf)).of_edits hedits hwf
  · intro hshallow hclash
    have hscan := (commitScanDir_conflict commitScanMaxDepth hwf hS st.root hshallow).2 hclash
    refine ⟨_, vfsCommit_conflict hwf hS hscan, ?_⟩
    exact (commitScanDir_edits S commitScanMaxDepth st st.root hwf.file.pagesWf).nothingChanged hwf

theorem commit_effect_rename_and_write :
    (let st := run (bootstrap 8192 1024) [.create 1 [97] 0, .snapshot, .rename 1 [97] 1 [98] 1]
     CommitView st 1 (vfsCommit st 1).2) ∧
    (let st := run (bootstrap 8192 1024)
       [.create 1 [97] 0, .snapshot, .write 2 [7] 0 1, .write 2 [8] 0 2]
     ∃ st', vfsCommit st 1 = (.error .conflict, st') ∧ NothingChanged st st') := by
  have hsnap : ValidOp (run (bootstrap 8192 1024) [.create 1 [97] 0]) .snapshot := by
    show (0 : Int) + 2 < 2 ^ 31
    decide
  constructor
  · have hops : Run.AllSteps step ValidOp (bootstrap 8192 1024)
        [.create 1 [97] 0, .snapshot, .rename 1 [97] 1 [98] 1] :=
      ⟨.inl rfl, hsnap, .inr (by decide +kernel), trivial⟩
    refine (commit_effect (by decide) (by decide) _ hops 1
      ⟨by decide, by decide, by decide +kernel, nofun⟩).1 _ ?_
    rfl
  · have hops : Run.AllSteps step ValidOp (bootstrap 8192 1024)
        [.create 1 [97] 0, .snapshot, .write 2 [7] 0 1, .write 2 [8] 0 2] :=
      ⟨.inl rfl, hsnap, ⟨.inr (by decide +kernel), by decide +kernel⟩,
        ⟨.inl (by decide +kernel), by decide +kernel⟩, trivial⟩
    refine (commit_effect (by decide) (by decide) _ hops 1
      ⟨by decide, by decide, by decide +kernel, nofun⟩).2 ?_ ?_
    · -- the only slot leads to the file
      rintro n d h
      cases h with
      | here => decide
      | down _ slot child name n _ hl hdir _ =>
        obtain ⟨d₀, dc, hd₀, hmem, hdc, -, rfl⟩ := hl
        obtain rfl : slot = 4 := by
          cases hd₀
          exact List.mem_singleton.1 hmem
        cases hdc
        cases hdir
    · refine ⟨0, 1, 4, [97], 2, _, 0, 5, .here 1, ⟨_, _, rfl, ?_, rfl, rfl, rfl⟩, rfl, ?_, nofun, rfl,
        ?_⟩
      · exact List.mem_singleton.2 rfl
      · decide +kernel
      · exact ⟨⟨⟨1, 0⟩, by decide +kernel, rfl⟩, ⟨2, 1⟩, by decide +kernel, by decide +kernel,
          by decide +kernel⟩

/-- The same entry renamed at the snapshot and at the next head: the commit succeeds, and the head
shows its own name, not the one of the snapshot. -/
theorem commit_of_rename_lost :
    let st := run (bootstrap 8192 1024)
      [.create 1 [97] 0, .snapshot, .rename 1 [97] 1 [98] 1, .rename 1 [97] 1 [99] 2]
    Run.AllSteps step ValidOp (bootstrap 8192 1024)
        [.create 1 [97] 0, .snapshot, .rename 1 [97] 1 [98] 1, .rename 1 [97] 1 [99] 2] ∧
      Active st 1 ∧ st.currentEpoch = 2 ∧
      (st.slots 4).map (fun s => s.chain.map DirContent.epoch) = some [2, 1, 0] ∧
      (vfsCommit st 1).1.toOption = some () ∧
      (vfsReaddir st 1 1).toOption.map (List.map Dirent.name) = some [[98]] ∧
      (vfsReaddir (vfsCommit st 1).2 1 2).toOption.map (List.map Dirent.name) = some [[99]] := by
  refine ⟨⟨.inl rfl, ?_, .inr (by decide +kernel), .inl rfl, trivial⟩,
    ⟨by decide, by decide, by decide +kernel, nofun⟩, rfl, ?_, ?_, ?_, ?_⟩
  · show (0 : Int) + 2 < 2 ^ 31
    decide
  all_goals decide +kernel

end SphereVFS
