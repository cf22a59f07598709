import SphereVFS.FileFrame
import SphereVFS.DirOps
import SphereVFS.Commit

/-!
# SphereVFS.FileSteps

The file operations and the scan of a commit leave the directories, the slots and the epochs alone,
whatever their arguments are and in whatever state they start.
-/

namespace SphereVFS

variable {st st' st'' : State} {file : VPtr} {f : FileNode}

/-! ## Resolving a page

A relation that has the changes of the cache, and the new segments and nodes of a file, has
`tree_resolve_page`. -/

section Resolve

variable {R : State → State → Prop} (hcache : ∀ (st : State) (cache : List TcacheEntry) (next : Nat),
  R st { st with tcache := cache, tcacheNext := next })
include hcache

theorem tcachePatch_rel (st : State) (look : CacheLookup) (page : Nat) (pn : VPtr) :
    R st (tcachePatch st look page pn) := by
  have hrefl : R st st := hcache st st.tcache st.tcacheNext
  cases look with
  | hit pn' => exact hrefl
  | miss => exact hrefl
  | gap i =>
    rw [tcachePatch]
    split
    · exact hcache ..
    · exact hrefl

theorem tcachePopulate_rel (st : State) (key : Nat) (fc : FileContent) : R st (tcachePopulate st key fc) := by
  rw [tcachePopulate]
  split
  · exact hcache ..
  · exact hcache st st.tcache st.tcacheNext

theorem tcacheLookup_rel (st : State) (key page : Nat) :
    R st (tcacheLookup st key page).2 ∧ (tcacheLookup st key page).2.nodes = st.nodes := by
  rw [tcacheLookup]
  repeat' split
  all_goals exact ⟨hcache .., rfl⟩

variable (htrans : ∀ {st st' st'' : State}, R st st' → R st' st'' → R st st'')
  (hpad : ∀ (st : State) (file : VPtr) (f : FileNode) (segment : Nat), st.nodes file = some (.file f) →
    R st { st with
      nodes := Function.update st.nodes file
        (some (.file { f with contents := padSegments f.contents segment })) })
  {isWrite : Bool}
  (hfirst : isWrite = true → ∀ (st : State) (file : VPtr) (f : FileNode) (segment page : Nat),
    st.nodes file = some (.file f) →
      R st (newPageNode st file f page (padSegments f.contents segment ++ [⟨1, [st.nextVp]⟩])))
  (hinsert : isWrite = true → ∀ (st : State) (file : VPtr) (f : FileNode) (segment page : Nat) (fc : FileContent),
    st.nodes file = some (.file f) → f.contents[segment]? = some fc →
      R st (newPageNode st file f page
        (f.contents.set segment ⟨fc.pageCount + 1, insertPage st page st.nextVp fc.pages⟩)))
include htrans hpad hfirst hinsert

theorem resolveSlow_rel (hf : st.nodes file = some (.file f)) (segment page : Nat) (look : CacheLookup) :
    R st (resolveSlow st file f segment page isWrite look).2 := by
  rw [resolveSlow]
  split
  · cases isWrite with
    | true => exact htrans (hfirst rfl _ _ _ _ _ hf) (tcachePatch_rel hcache ..)
    | false => exact hpad _ _ _ _ hf
  · rename_i fc hfc
    split
    · exact htrans (tcachePatch_rel hcache ..) (tcachePopulate_rel hcache ..)
    · cases isWrite with
      | true =>
        exact htrans (htrans (hinsert rfl _ _ _ _ _ fc hf hfc) (tcachePatch_rel hcache ..))
          (tcachePopulate_rel hcache ..)
      | false => exact hcache st st.tcache st.tcacheNext

theorem treeResolvePage_rel (st : State) (file : VPtr) (page : Nat) :
    R st (treeResolvePage st file page isWrite).2 := by
  rw [treeResolvePage]
  split
  · rename_i f hf
    obtain ⟨hlook, hnodes⟩ := tcacheLookup_rel hcache st (cacheKey file (page / st.segmentSize))
      (page % st.segmentSize)
    dsimp only
    split
    · rename_i st1 heq
      rwa [heq] at hlook
    · rename_i look st1 _ heq
      rw [heq] at hlook hnodes
      exact htrans hlook (resolveSlow_rel hcache htrans hpad hfirst hinsert (hnodes ▸ hf) ..)
  · exact hcache st st.tcache st.tcacheNext

end Resolve

theorem treeResolvePage_dirsKept (st : State) (file : VPtr) (page : Nat) (isWrite : Bool) :
    DirsKept st (treeResolvePage st file page isWrite).2 :=
  treeResolvePage_rel (fun _ _ _ => .of_nodes_eq rfl rfl rfl rfl rfl rfl (Nat.le_refl _)) .trans
    (fun _ _ _ _ hf => .of_update hf rfl rfl rfl rfl rfl rfl (Nat.le_refl _))
    (fun _ _ _ _ _ _ hf => .of_update hf rfl rfl rfl rfl rfl rfl (Nat.le_succ _))
    (fun _ _ _ _ _ _ _ hf _ => .of_update hf rfl rfl rfl rfl rfl rfl (Nat.le_succ _)) ..

/-! ## Reading and writing

Each loop does to a volume what its steps do: a relation that has the steps has the loops. -/

section Loops

variable {R : State → State → Prop} (hrefl : ∀ st, R st st)
  (htrans : ∀ {st st' st'' : State}, R st st' → R st' st'' → R st st'')
  (hres : ∀ (st : State) (file : VPtr) (page : Nat) (isWrite : Bool), R st (treeResolvePage st file page isWrite).2)
include hrefl htrans hres

theorem vfsRead_rel (st : State) (file : VPtr) (offset count epoch : Int) :
    R st (vfsRead st file offset count epoch).2 := by
  have hloop : ∀ (readEpoch : Int) (n : Nat) (st : State) (page off remaining : Nat),
      R st (readLoop file readEpoch n st page off remaining).2 := by
    intro readEpoch n
    induction n with
    | zero => exact fun st _ _ _ => hrefl st
    | succ n ih =>
      exact fun st page off remaining => htrans (hres st file page false) (ih _ (page + 1) 0 _)
  rw [vfsRead]
  split
  · exact hrefl st
  · dsimp only
    split
    · exact hrefl st
    · exact hloop ..

variable (hpage : ∀ (st : State) (pn : VPtr) (pinned : Bool) (epoch : Int) (off : Nat) (bytes : List UInt8),
  R st (writePage st pn pinned epoch off bytes))
include hpage

theorem writeLoop_rel (file : VPtr) (epoch : Int) (n : Nat) (st : State) (page off : Nat) (bytes : List UInt8) :
    R st (writeLoop file epoch n st page off bytes).2 := by
  induction n generalizing st page off bytes with
  | zero => exact hrefl st
  | succ n ih =>
    have hone := hres st file page true
    rw [writeLoop]
    split
    · rename_i st1 heq
      rwa [heq] at hone
    · rename_i pn pinned st1 heq
      rw [heq] at hone
      exact htrans (htrans hone (hpage ..)) (ih _ (page + 1) 0 _)

variable (hsize : ∀ (st : State) (file : VPtr) (epoch : Int) (size : Nat), R st (prependSize st file epoch size))
include hsize

theorem vfsWrite_rel (st : State) (file : VPtr) (data : List UInt8) (offset epoch : Int) :
    R st (vfsWrite st file data offset epoch).2 := by
  rw [vfsWrite]
  split
  · exact hrefl st
  split
  · exact hrefl st
  split
  · have hloop := writeLoop_rel hrefl htrans hres hpage file epoch
      ((offset.toNat + data.length - 1) / st.pageSize - offset.toNat / st.pageSize + 1) st
      (offset.toNat / st.pageSize) (offset.toNat % st.pageSize) data
    dsimp only
    split
    · rename_i st1 heq
      rwa [heq] at hloop
    · rename_i st1 heq
      rw [heq] at hloop
      split
      · exact htrans hloop (hsize ..)
      · exact hloop
  · exact hrefl st

theorem growLoop_rel (file : VPtr) (epoch : Int) (n : Nat) (st : State) (off remaining : Nat) :
    R st (growLoop file epoch n st off remaining).2 := by
  induction n generalizing st off remaining with
  | zero => exact hrefl st
  | succ n ih =>
    rw [growLoop]
    split
    · exact hrefl st
    · have hwrite := vfsWrite_rel hrefl htrans hres hpage hsize st file
        (List.replicate (min remaining 8192) 0) off epoch
      dsimp only
      split
      · rename_i e st1 heq
        rwa [heq] at hwrite
      · rename_i k st1 heq
        rw [heq] at hwrite
        exact htrans hwrite (ih st1 _ _)

variable (hbin : ∀ (st : State) (entries : List BinEntry), R st { st with bin := entries })
include hbin

theorem vfsTruncate_rel (st : State) (file : VPtr) (newSize epoch : Int) :
    R st (vfsTruncate st file newSize epoch).2 := by
  rw [vfsTruncate]
  split
  · exact hrefl st
  split
  · exact hrefl st
  split
  · dsimp only
    split
    · exact hrefl st
    · split
      · exact htrans (hsize st file epoch newSize.toNat) (hbin ..)
      · exact growLoop_rel hrefl htrans hres hpage hsize ..
  · exact hrefl st

end Loops

theorem writePage_dirsKept (st : State) (pn : VPtr) (pinned : Bool) (epoch : Int) (off : Nat)
    (bytes : List UInt8) : DirsKept st (writePage st pn pinned epoch off bytes) := by
  rw [writePage]
  split
  · exact .refl st
  · split
    all_goals exact .of_nodes_eq rfl rfl rfl rfl rfl rfl (Nat.le_refl _)

theorem prependSize_dirsKept (st : State) (file : VPtr) (epoch : Int) (size : Nat) :
    DirsKept st (prependSize st file epoch size) := by
  rw [prependSize]
  split
  · rename_i f hf
    exact .of_update hf rfl rfl rfl rfl rfl rfl (Nat.le_refl _)
  · exact .refl st

theorem vfsRead_dirsKept (st : State) (file : VPtr) (offset count epoch : Int) :
    DirsKept st (vfsRead st file offset count epoch).2 :=
  vfsRead_rel .refl .trans treeResolvePage_dirsKept ..

theorem vfsWrite_dirsKept (st : State) (file : VPtr) (data : List UInt8) (offset epoch : Int) :
    DirsKept st (vfsWrite st file data offset epoch).2 :=
  vfsWrite_rel .refl .trans treeResolvePage_dirsKept writePage_dirsKept prependSize_dirsKept ..

theorem vfsTruncate_dirsKept (st : State) (file : VPtr) (newSize epoch : Int) :
    DirsKept st (vfsTruncate st file newSize epoch).2 :=
  vfsTruncate_rel .refl .trans treeResolvePage_dirsKept writePage_dirsKept prependSize_dirsKept
    (fun _ _ => .of_nodes_eq rfl rfl rfl rfl rfl rfl (Nat.le_refl _)) ..

/-! ### Sizes -/

structure SizesKept (st st' : State) : Prop where
  files : ∀ v f, st.nodes v = some (.file f) → ∃ f', st'.nodes v = some (.file f') ∧ f'.sizes = f.sizes
  pageSize : st'.pageSize = st.pageSize

namespace SizesKept

theorem of_nodes (hnodes : st'.nodes = st.nodes) (hsize : st'.pageSize = st.pageSize) :
    SizesKept st st' :=
  ⟨fun _ f hf => ⟨f, hnodes ▸ hf, rfl⟩, hsize⟩

theorem refl (st : State) : SizesKept st st := .of_nodes rfl rfl

theorem trans (h : SizesKept st st') (h' : SizesKept st' st'') : SizesKept st st'' := by
  refine ⟨fun v f hf => ?_, h'.pageSize.trans h.pageSize⟩
  obtain ⟨f', hf', hs'⟩ := h.files v f hf
  obtain ⟨f'', hf'', hs''⟩ := h'.files v f' hf'
  exact ⟨f'', hf'', hs''.trans hs'⟩

theorem of_update (hf : st.nodes file = some (.file f)) {contents : List FileContent}
    (hnodes : st'.nodes = Function.update st.nodes file (some (.file { f with contents := contents })))
    (hsize : st'.pageSize = st.pageSize) : SizesKept st st' := by
  refine ⟨fun v g hg => ?_, hsize⟩
  by_cases hv : v = file
  · subst hv
    obtain rfl : f = g := by simpa [hf] using hg
    exact ⟨{ f with contents := contents }, by rw [hnodes, Function.update_self], rfl⟩
  · exact ⟨g, by simp [hnodes, hv, hg], rfl⟩

theorem fileSize (h : SizesKept st st') (htable : st'.mapperTable = st.mapperTable)
    (hf : st.nodes file = some (.file f)) (epoch : Int) :
    vfsFileSize st' file epoch = vfsFileSize st file epoch := by
  obtain ⟨f', hf', hs'⟩ := h.files file f hf
  simp only [vfsFileSize, hf, hf', hs', htable, sizechainGet]

end SizesKept

theorem treeResolvePage_sizes (st : State) (file : VPtr) (page : Nat) (isWrite : Bool) :
    SizesKept st (treeResolvePage st file page isWrite).2 :=
  treeResolvePage_rel (fun _ _ _ => .of_nodes rfl rfl) .trans (fun _ _ _ _ hf => .of_update hf rfl rfl)
    (fun _ _ _ _ _ _ hf => .of_update hf rfl rfl) (fun _ _ _ _ _ _ _ hf _ => .of_update hf rfl rfl) ..

theorem writePage_sizes (st : State) (pn : VPtr) (pinned : Bool) (epoch : Int) (off : Nat)
    (bytes : List UInt8) : SizesKept st (writePage st pn pinned epoch off bytes) := by
  rw [writePage]
  split
  · exact .refl st
  · split
    all_goals exact .of_nodes rfl rfl

theorem writeLoop_sizes (file : VPtr) (epoch : Int) (n : Nat) (st : State) (page off : Nat)
    (bytes : List UInt8) : SizesKept st (writeLoop file epoch n st page off bytes).2 :=
  writeLoop_rel .refl .trans treeResolvePage_sizes writePage_sizes ..

/-! ## The scan of a commit -/

section Scan

variable {R : State → State → Prop} (hrefl : ∀ st, R st st)
  (htrans : ∀ {st st' st'' : State}, R st st' → R st' st'' → R st st'')
include hrefl htrans

theorem scanList_rel {check : State → VPtr → Option Err × State} (hcheck : ∀ st v, R st (check st v).2)
    (vs : List VPtr) (st : State) : R st (scanList check vs st).2 := by
  induction vs generalizing st with
  | nil => exact hrefl st
  | cons v vs ih =>
    have hone := hcheck st v
    rw [scanList]
    split
    · rename_i e st1 heq
      rwa [heq] at hone
    · rename_i st1 heq
      rw [heq] at hone
      exact htrans hone (ih st1)

theorem scanPages_rel
    (hres : ∀ (st : State) (file : VPtr) (page : Nat), R st (treeResolvePage st file page false).2)
    (sEpoch : Int) (file : VPtr) (n page : Nat) (st : State) : R st (scanPages sEpoch file n page st).2 := by
  induction n generalizing page st with
  | zero => exact hrefl st
  | succ n ih =>
    have hone := hres st file page
    rw [scanPages]
    split
    · rename_i st1 heq
      rwa [heq] at hone
    · rename_i pn pin st1 heq
      rw [heq] at hone
      split
      · exact hone
      · exact htrans hone (ih (page + 1) st1)

variable {sEpoch : Int} (hpages : ∀ (st : State) (file : VPtr) (f : FileNode), st.nodes file = some (.file f) →
  R st (scanPages sEpoch file (scanCount st sEpoch f) 0 st).2)
include hpages

omit htrans in
theorem scanSlot_rel {dirScan : State → VPtr → Option Err × State} (hscan : ∀ st v, R st (dirScan st v).2)
    (st : State) (slot : VPtr) : R st (scanSlot sEpoch dirScan st slot).2 := by
  rw [scanSlot]
  split
  · split
    · exact hrefl st
    · split
      · exact hscan st _
      · exact hpages _ _ _ ‹_›
      · exact hrefl st
  · exact hrefl st

theorem commitScanDir_rel (depth : Nat) (st : State) (dir : VPtr) :
    R st (commitScanDir sEpoch depth st dir).2 := by
  induction depth generalizing st dir with
  | zero => exact hrefl st
  | succ depth ih =>
    rw [commitScanDir]
    split
    · exact scanList_rel hrefl htrans (scanSlot_rel hrefl hpages ih) _ st
    · exact hrefl st

end Scan

theorem commitScanDir_dirsKept (sEpoch : Int) (depth : Nat) (st : State) (dir : VPtr) :
    DirsKept st (commitScanDir sEpoch depth st dir).2 :=
  commitScanDir_rel .refl .trans (fun _ _ _ _ => scanPages_rel .refl .trans
    (fun st file page => treeResolvePage_dirsKept st file page false) ..) ..

/-! ## Commits -/

section Mapped

variable {P : State → Prop} {S : Int} (hst : P st) (hmap : ∀ (st1 : State) (chain rows : List MapperRow)
  (entries : List BinEntry), P st1 → P { st1 with mapper := chain, mapperTable := rows, bin := entries })
include hst hmap

theorem vfsCommit_state (hscan : P (commitScanDir (u32 S) commitScanMaxDepth st st.root).2) :
    P (vfsCommit st S).2 := by
  rw [vfsCommit]
  split
  · exact hst
  split
  · exact hst
  split
  · rename_i heq
    rwa [heq] at hscan
  · rename_i st1 heq
    rw [heq] at hscan
    split
    · exact hscan
    · rename_i hadd
      obtain ⟨chain, -, rfl⟩ := Option.map_eq_some_iff.1 hadd
      exact hmap st1 chain _ _ hscan

theorem vfsDeleteSnapshot_state : P (vfsDeleteSnapshot st S).2 := by
  rw [vfsDeleteSnapshot]
  split
  · exact hst
  split
  · exact hst
  dsimp only
  split
  · exact hst
  · rename_i hadd
    obtain ⟨chain, -, rfl⟩ := Option.map_eq_some_iff.1 hadd
    exact hmap st chain _ _ hst

end Mapped

/-! ## Directories -/

structure SameDirs (st st' : State) : Prop where
  dirs : ∀ v d, st'.nodes v = some (.dir d) ↔ st.nodes v = some (.dir d)
  slots : st'.slots = st.slots
  next : st.nextVp ≤ st'.nextVp

theorem DirsKept.sameDirs (h : DirsKept st st') : SameDirs st st' := ⟨h.dirs, h.slots, h.next⟩

theorem step_dirs (st : State) (op : Op) : DirMoves st (step st op) ∨ SameDirs st (step st op) := by
  have hmap : ∀ (st1 : State) (chain rows : List MapperRow) (entries : List BinEntry), SameDirs st st1 →
      SameDirs st { st1 with mapper := chain, mapperTable := rows, bin := entries } :=
    fun st1 _ _ _ h => ⟨h.dirs, h.slots, h.next⟩
  cases op with
  | create parent name epoch => exact .inl (vfsCreate_moves st parent name epoch)
  | mkdir parent name epoch => exact .inl (vfsMkdir_moves st parent name epoch)
  | delete parent name epoch => exact .inl (vfsDelete_moves st parent name epoch)
  | rmdir parent name epoch => exact .inl (vfsRmdir_moves st parent name epoch)
  | rename srcParent src dstParent dst epoch =>
    exact .inl (vfsRename_moves st srcParent src dstParent dst epoch)
  | read file offset count epoch => exact .inr (vfsRead_dirsKept ..).sameDirs
  | write file data offset epoch => exact .inr (vfsWrite_dirsKept ..).sameDirs
  | truncate file newSize epoch => exact .inr (vfsTruncate_dirsKept ..).sameDirs
  | snapshot => exact .inr ⟨fun _ _ => .rfl, rfl, Nat.le_refl _⟩
  | commit S =>
    exact .inr (vfsCommit_state (DirsKept.refl st).sameDirs hmap (commitScanDir_dirsKept ..).sameDirs)
  | deleteSnapshot S => exact .inr (vfsDeleteSnapshot_state (DirsKept.refl st).sameDirs hmap)

section Keeps

variable {P : State → Prop} (hmove : ∀ {st st' : State}, DirMove st st' → P st → P st')
  (hsame : ∀ {st st' : State}, SameDirs st st' → P st → P st')
include hmove hsame

theorem step_keeps (h : P st) (op : Op) : P (step st op) := by
  obtain hmoves | hdirs := step_dirs st op
  · generalize step st op = st' at hmoves ⊢
    induction hmoves with
    | refl => exact h
    | tail _ hm ih => exact hmove hm ih
  · exact hsame hdirs h

theorem run_keeps (h : P st) (ops : List Op) : P (run st ops) := by
  induction ops generalizing st with
  | nil => exact h
  | cons op ops ih => exact ih (step_keeps hmove hsame h op)

end Keeps

end SphereVFS
