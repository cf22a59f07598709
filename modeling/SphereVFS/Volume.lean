import SphereVFS.DirOps
import SphereVFS.WriteOps
import SphereVFS.Lib.Run

/-!
# SphereVFS.Volume

The invariant of a volume over whole runs, and the frame rule of a step: a reader at an epoch below
the head sees the same listings, sizes and bytes after every operation that is not at its epoch.
-/

namespace SphereVFS

variable {st st' st'' : State} {epoch R R' : Int}

/-! ## Files under directory edits -/

structure FilesKept (st st' : State) : Prop where
  files : ∀ v f, st.nodes v = some (.file f) → st'.nodes v = some (.file f)
  new : ∀ v f, st'.nodes v = some (.file f) →
    st.nodes v = some (.file f) ∨ f.contents = [] ∧ f.sizes = []
  pageNodes : st'.pageNodes = st.pageNodes
  data : st'.data = st.data
  nextPage : st'.nextPage = st.nextPage
  tcache : st'.tcache = st.tcache
  gen : st'.gcGeneration = st.gcGeneration
  pageSize : st'.pageSize = st.pageSize
  segmentSize : st'.segmentSize = st.segmentSize
  epoch : st'.currentEpoch = st.currentEpoch
  table : st'.mapperTable = st.mapperTable
  next : st.nextVp ≤ st'.nextVp

namespace FilesKept

theorem refl (st : State) : FilesKept st st :=
  ⟨fun _ _ h => h, fun _ _ h => .inl h, rfl, rfl, rfl, rfl, rfl, rfl, rfl, rfl, rfl, Nat.le_refl _⟩

theorem trans (h : FilesKept st st') (h' : FilesKept st' st'') : FilesKept st st'' where
  files := fun v f hf => h'.files v f (h.files v f hf)
  new := fun v f hf => by
    obtain hf | hf := h'.new v f hf
    · exact h.new v f hf
    · exact .inr hf
  pageNodes := h'.pageNodes.trans h.pageNodes
  data := h'.data.trans h.data
  nextPage := h'.nextPage.trans h.nextPage
  tcache := h'.tcache.trans h.tcache
  gen := h'.gen.trans h.gen
  pageSize := h'.pageSize.trans h.pageSize
  segmentSize := h'.segmentSize.trans h.segmentSize
  epoch := h'.epoch.trans h.epoch
  table := h'.table.trans h.table
  next := Nat.le_trans h.next h'.next

theorem pageNodeOf (h : FilesKept st st') (file : VPtr) (lp : Nat) :
    pageNodeOf st' file lp = pageNodeOf st file lp := by
  have hidx : ∀ v, pageIdx st' v = pageIdx st v := fun v => pageIdx_congr (by rw [h.pageNodes])
  by_cases hfile : ∃ f, st.nodes file = some (.file f)
  · obtain ⟨f, hf⟩ := hfile
    rw [pageNodeOf_file hf, pageNodeOf_file (h.files file f hf), h.segmentSize]
    exact findPage_congr fun v _ => hidx v
  · rw [pageNodeOf_not_file fun f hf => hfile ⟨f, hf⟩]
    by_cases hfile' : ∃ f, st'.nodes file = some (.file f)
    · -- a new file has no pages
      obtain ⟨f, hf⟩ := hfile'
      obtain hf' | ⟨hempty, -⟩ := h.new file f hf
      · exact absurd ⟨f, hf'⟩ hfile
      · rw [pageNodeOf_file hf, hempty]
        rfl
    · exact pageNodeOf_not_file (fun f hf => hfile' ⟨f, hf⟩) lp

theorem pagesWf (h : FilesKept st st') (hwf : PagesWf st) : PagesWf st' := by
  have hidx : ∀ v, pageIdx st' v = pageIdx st v := fun v => pageIdx_congr (by rw [h.pageNodes])
  constructor
  · rw [h.pageSize]; exact hwf.page_pos
  · rw [h.segmentSize]; exact hwf.seg_pos
  · intro v hv
    rw [h.pageNodes]
    exact hwf.pn_fresh v (Nat.le_trans h.next hv)
  · intro file f hf k
    obtain hf | ⟨hempty, -⟩ := h.new file f hf
    · exact (hwf.segs file f hf k).congr (by rw [h.pageNodes]; exact fun _ h => h) hidx h.segmentSize
    · rw [hempty]
      exact SegOk.nil st'
  · intro file f hf s hs
    rw [maxSize, h.pageSize, h.segmentSize]
    obtain hf | ⟨-, hempty⟩ := h.new file f hf
    · exact hwf.size_le file f hf s hs
    · simp [hempty] at hs
  · rw [h.tcache]
    exact hwf.cache.mono h.gen h.segmentSize fun file lp pn hpn => (h.pageNodeOf file lp).trans hpn

theorem fileWf (h : FilesKept st st') (hwf : FileWf st) : FileWf st' := by
  obtain ⟨hps, hss, hfresh, hsegs, hsizes, hcache⟩ := h.pagesWf hwf.pagesWf
  refine ⟨hps, hss, hfresh, hsegs, ?_, ?_, ?_, ?_, hsizes, hcache⟩
  · intro file lp file' lp' pn hpn hpn'
    rw [h.pageNodeOf] at hpn hpn'
    exact hwf.pn_inj file lp file' lp' pn hpn hpn'
  · rw [h.pageNodes, h.epoch, h.nextPage]; exact hwf.version
  · rw [h.pageNodes]; exact hwf.data_inj
  · intro file f hf s hs
    rw [h.epoch]
    obtain hf | ⟨-, hempty⟩ := h.new file f hf
    · exact hwf.size_epoch file f hf s hs
    · simp [hempty] at hs

theorem sameFiles (h : FilesKept st st') (R : Int) : SameFiles st R st' R where
  pageSize := h.pageSize
  sizes := fun file f hf => ⟨f, h.files file f hf, by rw [sizechainGet, sizechainGet, h.table]⟩
  view := fun file lp => pageView_same (h.pageNodeOf file lp) fun pn =>
    versionBytes_congr (by rw [h.pageNodes]) h.table h.data

theorem node_update {dir : VPtr} {node : Node} (hdir : ∀ f, st.nodes dir ≠ some (.file f))
    (hnode : ∀ f, node = .file f → f.contents = [] ∧ f.sizes = []) (nextVp id : Nat)
    (slots : VPtr → Option SlotNode) (hnext : st.nextVp ≤ nextVp) : FilesKept st { st with
      nextVp := nextVp
      nextNodeId := id
      slots := slots
      nodes := Function.update st.nodes dir (some node) } := by
  refine ⟨fun v f hf => ?_, fun v f hf => ?_, rfl, rfl, rfl, rfl, rfl, rfl, rfl, rfl, rfl, hnext⟩
  · have hne : v ≠ dir := by
      rintro rfl
      exact hdir f hf
    exact (Function.update_of_ne hne ..).trans hf
  · obtain ⟨-, h⟩ | ⟨-, h⟩ := update_some_iff.1 hf
    · exact .inr (hnode f h)
    · exact .inl h

theorem node {node : Node} (hfresh : st.nodes st.nextVp = none) (hnew : IsNew node) (id : Nat) :
    FilesKept st { st with
      nextVp := st.nextVp + 1
      nextNodeId := id
      nodes := Function.update st.nodes st.nextVp (some node) } := by
  refine node_update (by simp [hfresh]) ?_ (st.nextVp + 1) id st.slots (Nat.le_succ _)
  rintro f rfl
  cases hnew
  exact ⟨rfl, rfl⟩

theorem insertEntry {dir : VPtr} {d : DirNode} (hd : st.nodes dir = some (.dir d)) (childId : Nat)
    (child : VPtr) (name : Name) (epoch : Int) :
    FilesKept st (insertEntry st dir d childId child name epoch) := by
  refine node_update (by simp [hd]) ?_ (st.nextVp + 2) st.nextNodeId _ (Nat.le_add_right _ _)
  nofun

theorem setIndex {dir : VPtr} {d : DirNode} (hd : st.nodes dir = some (.dir d)) (ix : DirIndex) :
    FilesKept st (setIndex st dir d ix) := by
  refine node_update (by simp [hd]) ?_ st.nextVp st.nextNodeId st.slots (Nat.le_refl _)
  nofun

theorem prependEntry (slot : VPtr) (s : SlotNode) (childId : Nat) (child : VPtr) (name : Option Name)
    (epoch : Int) : FilesKept st (prependEntry st slot s childId child name epoch) :=
  ⟨fun _ _ h => h, fun _ _ h => .inl h, rfl, rfl, rfl, rfl, rfl, rfl, rfl, rfl, rfl, Nat.le_succ _⟩

theorem bin (entries : List BinEntry) : FilesKept st { st with bin := entries } :=
  ⟨fun _ _ h => h, fun _ _ h => .inl h, rfl, rfl, rfl, rfl, rfl, rfl, rfl, rfl, rfl, Nat.le_refl _⟩

end FilesKept

theorem DirEdit.filesKept (h : DirEdit epoch st st') (hwf : DirWf st) : FilesKept st st' := by
  cases h with
  | node node id hnew => exact .node (hwf.node_fresh st.nextVp (by lia)) hnew id
  | insert dir d childId child name hdir => exact .insertEntry hdir ..
  | prepend slot s childId child name => exact .prependEntry ..
  | reindex dir d ix hdir => exact .setIndex hdir ix
  | bin entries => exact .bin entries

theorem DirEdits.filesKept (h : DirEdits epoch st st') (hep : EpochWf st) (he : Writable st epoch)
    (hwf : DirWf st) : FilesKept st st' := by
  induction h with
  | refl => exact .refl st
  | tail hedits hedit ih =>
    exact ih.trans (hedit.filesKept (DirEdits.keeps hedits hep he hwf).dirWf)

/-! ## Moves of the epochs -/

structure Wf (st : State) : Prop where
  epoch : EpochWf st
  dir : DirWf st
  file : FileWf st

theorem bootstrap_wf {pageSize segmentSize : Nat} (hp : 0 < pageSize) (hs : 0 < segmentSize) :
    Wf (bootstrap pageSize segmentSize) :=
  ⟨bootstrap_epochWf .., bootstrap_dirWf .., bootstrap_fileWf hp hs⟩

structure EpochMove (st st' : State) : Prop where
  nodes : st'.nodes = st.nodes
  slots : st'.slots = st.slots
  pageNodes : st'.pageNodes = st.pageNodes
  data : st'.data = st.data
  pageSize : st'.pageSize = st.pageSize
  segmentSize : st'.segmentSize = st.segmentSize
  nextVp : st'.nextVp = st.nextVp
  nextPage : st'.nextPage = st.nextPage
  tcache : st'.tcache = st.tcache
  gen : st'.gcGeneration = st.gcGeneration
  root : st'.root = st.root
  head : st.currentEpoch ≤ st'.currentEpoch

namespace EpochMove

theorem dirWf (h : EpochMove st st') (hwf : DirWf st) : DirWf st' := by
  constructor
  · rw [h.nextVp, h.nodes]; exact hwf.node_fresh
  · rw [h.nextVp, h.slots]; exact hwf.slot_fresh
  · rw [h.nodes, h.slots]; exact hwf.slot_some
  · rw [h.nodes]; exact hwf.slot_nodup
  · rw [h.nodes]; exact hwf.slot_dir
  · rw [h.nodes]; exact hwf.index
  · intro v s hs dc hdc
    rw [h.slots] at hs
    obtain ⟨h0, hle⟩ := hwf.entry_epoch v s hs dc hdc
    exact ⟨h0, Int.le_trans hle h.head⟩
  · rw [h.nodes, h.slots]; exact hwf.entry_child

theorem fileWf (h : EpochMove st st') (hwf : FileWf st) : FileWf st' :=
  hwf.of_eq h.pageSize h.segmentSize h.nodes h.pageNodes h.nextVp (Nat.le_of_eq h.nextPage.symm)
    h.head h.tcache h.gen

theorem grow (h : EpochMove st st') (hwf : DirWf st) : DirGrow st st' :=
  .of_same hwf (fun v hv => by rwa [h.slots]) (fun dir d hd => ⟨d, by rwa [h.nodes], rfl⟩)
    (fun v f hf => ⟨f, by rwa [h.nodes]⟩) fun dir d' hd' v hv => ⟨d', by rwa [← h.nodes], hv⟩

theorem pageNodeOf (h : EpochMove st st') (file : VPtr) (lp : Nat) :
    pageNodeOf st' file lp = pageNodeOf st file lp := by
  refine pageNodeOf_congr h.segmentSize (fun v => pageIdx_congr (by rw [h.pageNodes])) ?_ ?_ lp
  · exact fun f hf => ⟨f, by rwa [h.nodes], rfl⟩
  · exact fun f hf => ⟨f, by rwa [← h.nodes]⟩

theorem sameEntries (h : EpochMove st st') (hwf : DirWf st)
    (hrule : ∀ e, 0 ≤ e → e ≤ st.currentEpoch →
      applicable st'.mapperTable R' e = applicable st.mapperTable R e) :
    SameEntries st R st' R' := by
  intro v
  rw [visibleEntry, visibleEntry, h.slots]
  cases hs : st.slots v with
  | none => rfl
  | some s =>
    apply chainWalk_congr
    intro dc hdc
    obtain ⟨h0, hle⟩ := hwf.entry_epoch v s hs dc hdc
    exact hrule dc.epoch h0 hle

theorem sameFiles (h : EpochMove st st') (hwf : FileWf st)
    (hrule : ∀ e, 0 ≤ e → e ≤ st.currentEpoch →
      applicable st'.mapperTable R' e = applicable st.mapperTable R e) :
    SameFiles st R st' R' where
  pageSize := h.pageSize
  sizes := by
    intro file f hf
    refine ⟨f, by rwa [h.nodes], ?_⟩
    have hwalk : chainWalk FileSize.epoch st'.mapperTable R' f.sizes =
        chainWalk FileSize.epoch st.mapperTable R f.sizes := by
      apply chainWalk_congr
      intro s hs
      obtain ⟨h0, hle⟩ := hwf.size_epoch file f hf s hs
      exact hrule s.epoch h0 hle
    rw [sizechainGet, sizechainGet, hwalk]
  view := by
    intro file lp
    refine pageView_same (h.pageNodeOf file lp) fun pn => versionBytes_same ?_ fun v _ => by rw [h.data]
    rw [visibleVersion, visibleVersion, h.pageNodes]
    cases hn : st.pageNodes pn with
    | none => rfl
    | some n =>
      apply chainWalk_congr
      intro v hv
      obtain ⟨h0, hle, -⟩ := hwf.version pn n hn v hv
      exact hrule v.epoch h0 hle

end EpochMove

/-! ### Snapshot -/

theorem snapshot_move (st : State) : EpochMove st (vfsSnapshot st).2 :=
  ⟨rfl, rfl, rfl, rfl, rfl, rfl, rfl, rfl, rfl, rfl, rfl, by simp only [vfsSnapshot]; omega⟩

theorem snapshot_wf (hwf : Wf st) (hlt : st.currentEpoch + 2 < 2 ^ 31) : Wf (vfsSnapshot st).2 := by
  have heven := hwf.epoch.head_even
  have hnn := hwf.epoch.head_nonneg
  refine ⟨⟨?_, ?_, hlt, ?_, hwf.epoch.chain⟩, (snapshot_move st).dirWf hwf.dir,
    (snapshot_move st).fileWf hwf.file⟩
  · simp only [vfsSnapshot]
    omega
  · simp only [vfsSnapshot]
    omega
  · intro r hr
    exact (hwf.epoch.rows r hr).mono (snapshot_move st).head

theorem snapshot_rule (hwf : Wf st) (hR : R = st.currentEpoch + 1 ∨ R = st.currentEpoch + 2)
    {e : Int} (h0 : 0 ≤ e) (hle : e ≤ st.currentEpoch) :
    applicable (vfsSnapshot st).2.mapperTable R e =
      applicable st.mapperTable st.currentEpoch e :=
  applicable_snapshot hwf.epoch.head_even (effEpoch_range hwf.epoch.rows h0 hle).2 hR

/-! ### Commit and soft-delete -/

structure Mapped (st : State) (S toEpoch : Int) (apply : Bool) (st' : State) : Prop where
  move : EpochMove st st'
  head : st'.currentEpoch = st.currentEpoch
  active : Active st S
  row : RowOk st.currentEpoch ⟨S, toEpoch, apply⟩
  table : st'.mapperTable = st.mapperTable ++ [⟨S, toEpoch, apply⟩]
  mapper : st'.mapper = ⟨S, toEpoch, apply⟩ :: st.mapper

theorem Mapped.wf {S toEpoch : Int} {apply : Bool} (h : Mapped st S toEpoch apply st') (hwf : Wf st) :
    Wf st' := by
  refine ⟨⟨?_, ?_, ?_, ?_, ?_⟩, h.move.dirWf hwf.dir, h.move.fileWf hwf.file⟩
  · rw [h.head]; exact hwf.epoch.head_even
  · rw [h.head]; exact hwf.epoch.head_nonneg
  · rw [h.head]; exact hwf.epoch.head_lt
  · intro r hr
    rw [h.table, List.mem_append, List.mem_singleton] at hr
    rw [h.head]
    obtain hr | rfl := hr
    · exact hwf.epoch.rows r hr
    · exact h.row
  · intro r
    rw [h.table, h.mapper, List.mem_append, List.mem_cons, List.mem_singleton, hwf.epoch.chain r,
      or_comm]

def AtLaterHead (st : State) (S e : Int) : Prop :=
  S < effEpoch st.mapperTable e ∧ effEpoch st.mapperTable e % 2 = 0

section Row

variable {S : Int} (hm : Mapped st S st.currentEpoch true st') (hwf : Wf st)
include hm hwf

theorem Mapped.walk_written {α : Type} {epochOf : α → Int} {chain : List α}
    (hrange : ∀ x ∈ chain, 0 ≤ epochOf x ∧ epochOf x ≤ st.currentEpoch)
    (hlater : ∀ x ∈ chain, ¬ AtLaterHead st S (epochOf x)) :
    chainWalk epochOf st'.mapperTable st.currentEpoch chain =
      chainWalk epochOf st.mapperTable S chain := by
  obtain ⟨hodd, hpos, hlt, hun⟩ := hm.active
  have hhead := hwf.epoch.head_lt
  rw [hm.table]
  refine chainWalk_congr fun x hx => ?_
  obtain ⟨h0, hle⟩ := hrange x hx
  exact applicable_commit_written hwf.epoch.rows hwf.epoch.head_even hlt hodd hun h0 hle (by omega)
    (hlater x hx)

theorem Mapped.walk_kept {α : Type} {epochOf : α → Int} {chain : List α}
    (hrange : ∀ x ∈ chain, 0 ≤ epochOf x ∧ epochOf x ≤ st.currentEpoch)
    (hne : ∀ x ∈ chain, epochOf x ≠ S) :
    chainWalk epochOf st'.mapperTable st.currentEpoch chain =
      chainWalk epochOf st.mapperTable st.currentEpoch chain := by
  have hhead := hwf.epoch.head_lt
  rw [hm.table]
  refine chainWalk_congr fun x hx => ?_
  obtain ⟨h0, hle⟩ := hrange x hx
  rw [applicable_commit_head hm.active.2.2.2 h0 (by omega), beq_eq_false_iff_ne.2 (hne x hx),
    Bool.false_or]

theorem Mapped.resolve_head : resolve st'.mapperTable st.currentEpoch = st.currentEpoch := by
  have h := (hm.wf hwf).epoch.resolve_writable (.inl rfl)
  rwa [hm.head] at h

end Row

theorem addMapping_eq_some {row : MapperRow} (h : addMapping st row = some st') :
    st' = { st with mapper := row :: st.mapper, mapperTable := st.mapperTable ++ [row] } := by
  obtain ⟨chain, hchain, rfl⟩ := Option.map_eq_some_iff.1 h
  rw [mapperInsert] at hchain
  split at hchain
  · cases hchain
  · cases hchain
    rfl

theorem active_of_check (hep : EpochWf st) {S : Int} (hodd : S % 2 = 1) (hpos : 0 < S)
    (hlt : S < st.currentEpoch) (hres : resolve st.mapper S = S) : Active st S := by
  have hhead := hep.head_lt
  have hrows : ∀ r ∈ st.mapper, RowOk st.currentEpoch r :=
    fun r hr => hep.rows r ((hep.chain r).1 hr)
  have hun := (resolve_eq_self hrows (by omega) (by omega)).1 hres
  exact ⟨hodd, hpos, hlt, fun r hr => hun r ((hep.chain r).2 hr)⟩

theorem Issued.odd_u32 (hep : EpochWf st) {S : Int} (hodd : S % 2 = 1) (hpos : 0 < S)
    (hlt : S < st.currentEpoch) : u32 S = S := hep.u32_issued (.inr ⟨hodd, hpos, hlt⟩)

theorem vfsDeleteSnapshot_cases (hwf : Wf st) {S : Int} (hodd : S % 2 = 1) (hpos : 0 < S)
    (hlt : S < st.currentEpoch) :
    (vfsDeleteSnapshot st S).2 = st ∨ Mapped st S (S - 1) false (vfsDeleteSnapshot st S).2 := by
  have hu := Issued.odd_u32 hwf.epoch hodd hpos hlt
  have hhead := hwf.epoch.head_lt
  have hu' : u32 (S - 1) = S - 1 := u32_of_range (by omega) (by omega)
  rw [vfsDeleteSnapshot]
  split
  · exact .inl rfl
  split
  · exact .inl rfl
  rename_i hres
  dsimp only
  rw [hu, hu']
  split
  · exact .inl rfl
  rename_i st1 hadd
  have hst1 := addMapping_eq_some hadd
  subst hst1
  right
  exact ⟨⟨rfl, rfl, rfl, rfl, rfl, rfl, rfl, rfl, rfl, rfl, rfl, Int.le_refl _⟩, rfl,
    active_of_check hwf.epoch hodd hpos hlt (by simpa using hres),
    ⟨hodd, hpos, hlt, fun h => (by cases h), fun _ => rfl⟩, rfl, rfl⟩

theorem vfsCommit_cases (hwf : Wf st) {S : Int} (hodd : S % 2 = 1) (hpos : 0 < S)
    (hlt : S < st.currentEpoch) :
    (∃ e st1, FileEdits st st1 ∧ vfsCommit st S = (.error e, st1)) ∨
      ∃ st1 st', FileEdits st st1 ∧ Mapped st1 S st1.currentEpoch true st' ∧
        vfsCommit st S = (.ok (), st') := by
  have hu := Issued.odd_u32 hwf.epoch hodd hpos hlt
  rw [vfsCommit]
  split
  · exact .inl ⟨_, st, .refl, rfl⟩
  split
  · exact .inl ⟨_, st, .refl, rfl⟩
  rename_i hres
  have hscan := commitScanDir_edits (u32 S) commitScanMaxDepth st st.root hwf.file.pagesWf
  generalize commitScanDir (u32 S) commitScanMaxDepth st st.root = r at *
  obtain ⟨_ | e, st1⟩ := r
  · have hkept : DirsKept st st1 := FileEdits.dirsKept hscan
    have hep := hkept.epochWf hwf.epoch
    have hlt' : S < st1.currentEpoch := by rwa [hkept.epoch]
    dsimp only
    rw [hu, hep.u32_issued (.inl rfl)]
    split
    · exact .inl ⟨_, st1, hscan, rfl⟩
    · rename_i st2 hadd
      have hst2 := addMapping_eq_some hadd
      subst hst2
      refine .inr ⟨st1, _, hscan, ?_, rfl⟩
      exact ⟨⟨rfl, rfl, rfl, rfl, rfl, rfl, rfl, rfl, rfl, rfl, rfl, Int.le_refl _⟩, rfl,
        active_of_check hep hodd hpos hlt' (by rw [hkept.mapper]; simpa using hres),
        ⟨hodd, hpos, hlt', fun _ => ⟨hep.head_even, hlt', Int.le_refl _⟩, fun h => by cases h⟩, rfl, rfl⟩
  · exact .inl ⟨e, st1, hscan, rfl⟩

/-! ## Steps -/

/-- The callers' part: epochs are the head or issued snapshots, files stay within the segments that
have a cache key of their own, and the head stays below `2 ^ 31`. -/
def ValidOp (st : State) : Op → Prop
  | .create _ _ epoch | .mkdir _ _ epoch | .delete _ _ epoch | .rmdir _ _ epoch => Issued st epoch
  | .rename _ _ _ _ epoch => Issued st epoch
  | .read _ _ _ _ => True
  | .write _ data offset epoch => Issued st epoch ∧ offset.toNat + data.length ≤ maxSize st
  | .truncate _ newSize epoch => Issued st epoch ∧ newSize.toNat ≤ maxSize st
  | .snapshot => st.currentEpoch + 2 < 2 ^ 31
  | .commit S | .deleteSnapshot S => S % 2 = 1 ∧ 0 < S ∧ S < st.currentEpoch

instance Issued.decidable (st : State) (e : Int) : Decidable (Issued st e) :=
  inferInstanceAs (Decidable (_ ∨ _ ∧ _ ∧ _))

instance ValidOp.decidable (st : State) : (op : Op) → Decidable (ValidOp st op)
  | .create _ _ epoch | .mkdir _ _ epoch | .delete _ _ epoch | .rmdir _ _ epoch
  | .rename _ _ _ _ epoch => inferInstanceAs (Decidable (Issued st epoch))
  | .read _ _ _ _ => inferInstanceAs (Decidable True)
  | .write _ _ _ _ | .truncate _ _ _ => inferInstanceAs (Decidable (_ ∧ _))
  | .snapshot => inferInstanceAs (Decidable (_ < _))
  | .commit _ | .deleteSnapshot _ => inferInstanceAs (Decidable (_ ∧ _ ∧ _))

def Op.isDirOp : Op → Bool
  | .create _ _ _ | .mkdir _ _ _ | .delete _ _ _ | .rmdir _ _ _ | .rename _ _ _ _ _ => true
  | _ => false

inductive Outcome (st : State) : Op → State → Prop
  | same (op : Op) : Outcome st op st
  | dir (op : Op) (epoch : Int) (st' : State) (hop : op.isDirOp = true) (hat : op.epoch = some epoch)
      (hw : Writable st epoch) (h : DirEdits epoch st st') : Outcome st op st'
  | write (op : Op) (epoch : Int) (st' : State) (hat : op.epoch = some epoch)
      (hw : Writable st epoch) (h : WriteEdits epoch st st') : Outcome st op st'
  | read (op : Op) (st' : State) (h : FileEdits st st') : Outcome st op st'
  | snapshot (hlt : st.currentEpoch + 2 < 2 ^ 31) : Outcome st .snapshot (vfsSnapshot st).2
  | commit (S : Int) (st1 st' : State) (h : FileEdits st st1)
      (hm : Mapped st1 S st1.currentEpoch true st') : Outcome st (.commit S) st'
  | delete (S : Int) (st' : State) (hm : Mapped st S (S - 1) false st') :
      Outcome st (.deleteSnapshot S) st'

theorem dirOp_cases (hwf : Wf st) {op : Op} (h : ValidOp st op) (hop : op.isDirOp = true) :
    step st op = st ∨
      ∃ epoch, op.epoch = some epoch ∧ Writable st epoch ∧ DirEdits epoch st (step st op) := by
  have hep := hwf.epoch
  cases op with
  | create parent name epoch =>
    obtain ⟨e, hs⟩ | ⟨d, -, -, hw, hd, -, hs⟩ := vfsCreate_call st parent name epoch
    · exact .inl (congrArg Prod.snd hs)
    · rw [step, hs]
      exact .inr ⟨epoch, rfl, hep.writable_of_check h hw, addNode_edits hwf.dir (.file _) hd⟩
  | mkdir parent name epoch =>
    obtain ⟨e, hs⟩ | ⟨d, -, hw, hd, hs⟩ := vfsMkdir_call st parent name epoch
    · exact .inl (congrArg Prod.snd hs)
    · rw [step, hs]
      exact .inr ⟨epoch, rfl, hep.writable_of_check h hw, addNode_edits hwf.dir (.dir _) hd⟩
  | delete parent name epoch =>
    obtain hs | ⟨hw, ht⟩ := vfsDelete_cases hwf.dir parent name epoch
    · exact .inl hs
    · exact .inr ⟨epoch, rfl, hep.writable_of_check h hw, ht.edits hwf.dir⟩
  | rmdir parent name epoch =>
    obtain hs | ⟨hw, ht⟩ := vfsRmdir_cases st parent name epoch
    · exact .inl hs
    · exact .inr ⟨epoch, rfl, hep.writable_of_check h hw, ht.edits hwf.dir⟩
  | rename srcParent src dstParent dst epoch =>
    obtain hs | ⟨child, childId, hw, hfind, hr⟩ :=
      vfsRename_cases hwf.dir srcParent src dstParent dst epoch
    · exact .inl hs
    · exact .inr ⟨epoch, rfl, hep.writable_of_check h hw,
        hr.edits hwf.dir (findChild_isSome hwf.dir hfind)⟩
  | read | write | truncate | snapshot | commit | deleteSnapshot => cases hop

theorem step_outcome (hwf : Wf st) {op : Op} (h : ValidOp st op) : Outcome st op (step st op) := by
  have hep := hwf.epoch
  have hdir (hop : op.isDirOp = true) : Outcome st op (step st op) := by
    obtain hs | ⟨epoch, hat, hw, hedits⟩ := dirOp_cases hwf h hop
    · rw [hs]
      exact .same _
    · exact .dir _ epoch _ hop hat hw hedits
  cases op with
  | create | mkdir | delete | rmdir | rename => exact hdir rfl
  | read file offset count epoch => exact .read _ _ (vfsRead_edits hwf.file.pagesWf file offset count epoch)
  | write file data offset epoch =>
    obtain hs | ⟨hw, he⟩ := vfsWrite_cases hep hwf.file h.1 file data offset h.2
    · rw [step, hs]
      exact .same _
    · exact .write _ epoch _ rfl hw he
  | truncate file newSize epoch =>
    obtain hs | ⟨hw, he⟩ := vfsTruncate_cases hep hwf.file h.1 file newSize h.2
    · rw [step, hs]
      exact .same _
    · exact .write _ epoch _ rfl hw he
  | snapshot => exact .snapshot h
  | commit S =>
    obtain ⟨e, st1, hedits, hs⟩ | ⟨st1, st', hedits, hm, hs⟩ :=
      vfsCommit_cases hwf h.1 h.2.1 h.2.2
    · rw [step, hs]
      exact .read _ _ hedits
    · rw [step, hs]
      exact .commit S st1 st' hedits hm
  | deleteSnapshot S =>
    obtain hs | hm := vfsDeleteSnapshot_cases hwf h.1 h.2.1 h.2.2
    · rw [step, hs]
      exact .same _
    · exact .delete S _ hm

theorem FileEdits.wf (h : FileEdits st st') (hwf : Wf st) : Wf st' :=
  ⟨h.dirsKept.epochWf hwf.epoch, h.dirsKept.dirWf hwf.dir, h.fileWf hwf.file⟩

theorem Outcome.wf {op : Op} (h : Outcome st op st') (hwf : Wf st) : Wf st' := by
  cases h with
  | same => exact hwf
  | dir _ epoch _ _ hat hw h =>
    have hkeep := h.keeps hwf.epoch hw hwf.dir
    exact ⟨hkeep.epochWf, hkeep.dirWf, (h.filesKept hwf.epoch hw hwf.dir).fileWf hwf.file⟩
  | write _ epoch _ hat hw h =>
    have hkeep := h.keeps hwf.epoch hw hwf.file
    exact ⟨hkeep.kept.epochWf hwf.epoch, hkeep.kept.dirWf hwf.dir, hkeep.fileWf⟩
  | read _ _ h => exact h.wf hwf
  | snapshot hlt => exact snapshot_wf hwf hlt
  | commit S st1 _ h hm => exact hm.wf (h.wf hwf)
  | delete S _ hm => exact hm.wf hwf

theorem step_wf (hwf : Wf st) {op : Op} (h : ValidOp st op) : Wf (step st op) :=
  (step_outcome hwf h).wf hwf

/-! ## The frame rule -/

/-- A reader at `R'` of `st'` sees the directories and files that one at `R` of `st` sees. -/
structure Frame (st : State) (R : Int) (st' : State) (R' : Int) : Prop where
  grow : DirGrow st st'
  entries : SameEntries st R st' R'
  files : SameFiles st R st' R'

theorem Frame.trans {R'' : Int} (h : Frame st R st' R') (h' : Frame st' R' st'' R'') :
    Frame st R st'' R'' :=
  ⟨h.grow.trans h'.grow, h.entries.trans h'.entries, h.files.trans h'.files⟩

theorem Frame.refl (hwf : Wf st) (R : Int) : Frame st R st R :=
  ⟨.refl hwf.dir, fun _ => rfl, .refl st R⟩

theorem FileEdits.frame (h : FileEdits st st') (hwf : Wf st) (R : Int) : Frame st R st' R :=
  ⟨h.dirsKept.grow hwf.dir, h.dirsKept.entries R, h.sameFiles hwf.file R⟩

theorem EpochMove.frame (h : EpochMove st st') (hwf : Wf st)
    (hrule : ∀ e, 0 ≤ e → e ≤ st.currentEpoch →
      applicable st'.mapperTable R' e = applicable st.mapperTable R e) : Frame st R st' R' :=
  ⟨h.grow hwf.dir, h.sameEntries hwf.dir hrule, h.sameFiles hwf.file hrule⟩

theorem Mapped.frame_delete {S toEpoch : Int} (h : Mapped st S toEpoch false st') (hwf : Wf st)
    (R : Int) : Frame st R st' R := by
  refine h.move.frame hwf fun e h0 hle => ?_
  have hlt := hwf.epoch.head_lt
  rw [h.table]
  exact applicable_delete h.active.2.2.2 h0 (by omega)

theorem Mapped.frame_commit {S : Int} (h : Mapped st S st.currentEpoch true st') (hwf : Wf st)
    (hR : R < st.currentEpoch) (hne : R ≠ S) : Frame st R st' R := by
  refine h.move.frame hwf fun e h0 hle => ?_
  have hlt := hwf.epoch.head_lt
  rw [h.table]
  exact applicable_commit_below h.active.1 h.active.2.2.2 h0 (by omega) hR hne

/-- A step at another epoch leaves the view as it was, except for the view of the head, which a
commit changes. -/
theorem Outcome.frame {op : Op} (h : Outcome st op st') (hwf : Wf st) (hR : R ≤ st.currentEpoch)
    (hne : op.epoch ≠ some R) (hcommit : ∀ S, op = .commit S → R ≠ st.currentEpoch) :
    Frame st R st' R := by
  cases h with
  | same => exact .refl hwf R
  | dir _ epoch _ _ hat hw h =>
    have hkeep := h.keeps hwf.epoch hw hwf.dir
    have hne' : R ≠ epoch := by rintro rfl; exact hne hat
    exact ⟨hkeep.grow, hkeep.entries R hR hne',
      (h.filesKept hwf.epoch hw hwf.dir).sameFiles R⟩
  | write _ epoch _ hat hw h =>
    have hkeep := h.keeps hwf.epoch hw hwf.file
    have hne' : R ≠ epoch := by rintro rfl; exact hne hat
    exact ⟨hkeep.kept.grow hwf.dir, hkeep.kept.entries R, hkeep.same R hR hne'⟩
  | read _ _ h => exact h.frame hwf R
  | snapshot hlt => exact (snapshot_move st).frame hwf fun e _ _ => rfl
  | commit S st1 _ h hm =>
    have hkept := FileEdits.dirsKept h
    have hlt : R < st1.currentEpoch := by
      have := hcommit S rfl
      rw [hkept.epoch]
      omega
    refine (h.frame hwf R).trans (hm.frame_commit (h.wf hwf) hlt ?_)
    rintro rfl
    exact hne rfl
  | delete S _ hm => exact hm.frame_delete hwf R

theorem Outcome.epochs {op : Op} (h : Outcome st op st') (hwf : Wf st) :
    st.currentEpoch ≤ st'.currentEpoch ∧
      ∀ e, Unmapped st.mapperTable e → op.epoch ≠ some e → Unmapped st'.mapperTable e := by
  cases h with
  | same => exact ⟨Int.le_refl _, fun _ h _ => h⟩
  | dir _ epoch _ _ hat hw h =>
    have hsame := (h.keeps hwf.epoch hw hwf.dir).same
    rw [hsame.epoch, hsame.table]
    exact ⟨Int.le_refl _, fun _ h _ => h⟩
  | write _ epoch _ hat hw h =>
    have hkept := (h.keeps hwf.epoch hw hwf.file).kept
    rw [hkept.epoch, hkept.table]
    exact ⟨Int.le_refl _, fun _ h _ => h⟩
  | read _ _ h =>
    have hkept := FileEdits.dirsKept h
    rw [hkept.epoch, hkept.table]
    exact ⟨Int.le_refl _, fun _ h _ => h⟩
  | snapshot hlt => exact ⟨(snapshot_move st).head, fun _ h _ => h⟩
  | commit S st1 _ h hm =>
    have hkept := FileEdits.dirsKept h
    rw [hm.head, hm.table, hkept.epoch, hkept.table]
    refine ⟨Int.le_refl _, fun e hun hne r hr => ?_⟩
    obtain hr | hr := List.mem_append.1 hr
    · exact hun r hr
    · rw [List.mem_singleton.1 hr]
      rintro rfl
      exact hne rfl
  | delete S _ hm =>
    rw [hm.head, hm.table]
    refine ⟨Int.le_refl _, fun e hun hne r hr => ?_⟩
    obtain hr | hr := List.mem_append.1 hr
    · exact hun r hr
    · rw [List.mem_singleton.1 hr]
      rintro rfl
      exact hne rfl

end SphereVFS
