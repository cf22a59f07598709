import SphereVFS.FilePages

/-!
# SphereVFS.FileInv

The invariant of the file side and its preservation by the edits of `tree_resolve_page`.
-/

namespace SphereVFS

variable {st st' : State} {file : VPtr}

structure SegOk (st : State) (pages : List VPtr) : Prop where
  node : ∀ pn ∈ pages, (st.pageNodes pn).isSome
  index : ∀ pn ∈ pages, pageIdx st pn < st.segmentSize
  sorted : Sorted st pages

/-- The bytes of the segments that have a cache key of their own. -/
def maxSize (st : State) : Nat := 2 ^ 20 * (st.segmentSize * st.pageSize)

structure FileWf (st : State) : Prop where
  page_pos : 0 < st.pageSize
  seg_pos : 0 < st.segmentSize
  pn_fresh : ∀ v, st.nextVp ≤ v → st.pageNodes v = none
  segs : ∀ file f, st.nodes file = some (.file f) → ∀ k, SegOk st (segPages f.contents k)
  pn_inj : ∀ file lp file' lp' pn, pageNodeOf st file lp = some pn →
    pageNodeOf st file' lp' = some pn → file = file' ∧ lp = lp'
  version : ∀ pn n, st.pageNodes pn = some n → ∀ v ∈ n.versions,
    0 ≤ v.epoch ∧ v.epoch ≤ st.currentEpoch ∧ v.dataPage < st.nextPage
  data_inj : ∀ pn n v pn' n' v', st.pageNodes pn = some n → v ∈ n.versions →
    st.pageNodes pn' = some n' → v' ∈ n'.versions → v.dataPage = v'.dataPage → pn = pn' ∧ v = v'
  size_epoch : ∀ file f, st.nodes file = some (.file f) → ∀ s ∈ f.sizes,
    0 ≤ s.epoch ∧ s.epoch ≤ st.currentEpoch
  size_le : ∀ file f, st.nodes file = some (.file f) → ∀ s ∈ f.sizes,
    s.size ≤ maxSize st
  cache : CacheOk st st.tcache

structure PagesWf (st : State) : Prop where
  page_pos : 0 < st.pageSize
  seg_pos : 0 < st.segmentSize
  pn_fresh : ∀ v, st.nextVp ≤ v → st.pageNodes v = none
  segs : ∀ file f, st.nodes file = some (.file f) → ∀ k, SegOk st (segPages f.contents k)
  size_le : ∀ file f, st.nodes file = some (.file f) → ∀ s ∈ f.sizes, s.size ≤ maxSize st
  cache : CacheOk st st.tcache

theorem FileWf.pagesWf (hwf : FileWf st) : PagesWf st :=
  ⟨hwf.page_pos, hwf.seg_pos, hwf.pn_fresh, hwf.segs, hwf.size_le, hwf.cache⟩

theorem PagesWf.pageNode_isSome (hwf : PagesWf st) {lp : Nat} {pn : VPtr}
    (h : pageNodeOf st file lp = some pn) : (st.pageNodes pn).isSome := by
  rw [pageNodeOf] at h
  split at h
  · rename_i f hf
    have hseg := hwf.segs file f hf (lp / st.segmentSize)
    exact hseg.node pn ((findPage_eq_some hseg.sorted).1 h).1
  · cases h

theorem SegOk.nil (st : State) : SegOk st [] := ⟨by simp, by simp, .nil⟩

theorem bootstrap_fileWf {pageSize segmentSize : Nat} (hp : 0 < pageSize) (hs : 0 < segmentSize) :
    FileWf (bootstrap pageSize segmentSize) := by
  have hnofile : ∀ file f, (bootstrap pageSize segmentSize).nodes file ≠ some (.file f) := by
    intro file f h
    cases (bootstrap_node h).2
  have hnone : ∀ file lp, pageNodeOf (bootstrap pageSize segmentSize) file lp = none := by
    intro file lp
    exact pageNodeOf_not_file (hnofile file) lp
  constructor
  · exact hp
  · exact hs
  · intro v _; rfl
  · intro file f hf; exact absurd hf (hnofile file f)
  · intro file lp file' lp' pn h; simp [hnone] at h
  · intro pn n h; cases h
  · intro pn n v pn' n' v' h; cases h
  · intro file f hf; exact absurd hf (hnofile file f)
  · intro file f hf; exact absurd hf (hnofile file f)
  · intro e he hpop
    simp only [bootstrap, List.mem_replicate] at he
    simp [he.2] at hpop

/-! ## The page map under an edit -/

theorem pageIdx_congr {v : VPtr} (h : st'.pageNodes v = st.pageNodes v) :
    pageIdx st' v = pageIdx st v := by
  simp only [pageIdx, h]

theorem pageNodeOf_pad {f : FileNode} {contents : List FileContent}
    (hf : st.nodes file = some (.file f)) (hpages : segPages contents = segPages f.contents)
    (file' : VPtr) (lp : Nat) :
    pageNodeOf { st with
      nodes := Function.update st.nodes file (some (.file { f with contents := contents })) }
      file' lp = pageNodeOf st file' lp := by
  by_cases hv : file' = file
  · subst hv
    simp only [pageNodeOf, Function.update_self, hf, hpages]
    exact findPage_congr fun v _ => rfl
  · simp only [pageNodeOf, Function.update_of_ne hv]
    rfl

section AddPage

variable {f : FileNode} {contents : List FileContent} {seg page : Nat}

theorem newPageNode_pageNodes (hwf : PagesWf st) (file : VPtr) (f : FileNode) (page : Nat)
    (contents : List FileContent) {v : VPtr} (hv : (st.pageNodes v).isSome) :
    (newPageNode st file f page contents).pageNodes v = st.pageNodes v := by
  apply Function.update_of_ne
  rintro rfl
  simp [hwf.pn_fresh st.nextVp (by lia)] at hv

theorem pageIdx_newPageNode (hwf : PagesWf st) (file : VPtr) (f : FileNode) (page : Nat)
    (contents : List FileContent) {v : VPtr} (hv : (st.pageNodes v).isSome) :
    pageIdx (newPageNode st file f page contents) v = pageIdx st v :=
  pageIdx_congr (newPageNode_pageNodes hwf file f page contents hv)

theorem pageNodeOf_addPage (hwf : PagesWf st) (hf : st.nodes file = some (.file f))
    (hnone : findPage st page (segPages f.contents seg) = none)
    (hpages : segPages contents = Function.update (segPages f.contents) seg
      (insertPage st page st.nextVp (segPages f.contents seg))) (file' : VPtr) (lp : Nat) :
    pageNodeOf (newPageNode st file f page contents) file' lp =
      if file' = file ∧ lp / st.segmentSize = seg ∧ lp % st.segmentSize = page then some st.nextVp
      else pageNodeOf st file' lp := by
  have hidx : ∀ k, ∀ v ∈ segPages f.contents k,
      pageIdx (newPageNode st file f page contents) v = pageIdx st v :=
    fun k v hv => pageIdx_newPageNode hwf file f page contents ((hwf.segs file f hf k).node v hv)
  have hnew : pageIdx (newPageNode st file f page contents) st.nextVp = page := by
    simp [pageIdx, newPageNode]
  by_cases hv : file' = file
  · subst hv
    have hf' : (newPageNode st file' f page contents).nodes file' =
        some (.file { f with contents := contents }) := Function.update_self ..
    rw [pageNodeOf_file hf', pageNodeOf_file hf, hpages]
    change findPage _ (lp % st.segmentSize)
      (Function.update (segPages f.contents) seg _ (lp / st.segmentSize)) = _
    by_cases hseg : lp / st.segmentSize = seg
    · rw [hseg, Function.update_self]
      have hok := hwf.segs file' f hf seg
      have hsorted := sorted_insertPage hok.sorted hnone (hidx seg) hnew
      by_cases hpage : lp % st.segmentSize = page
      · rw [if_pos ⟨rfl, rfl, hpage⟩, findPage_eq_some hsorted]
        exact ⟨mem_insertPage.2 (.inl rfl), hnew.trans hpage.symm⟩
      · rw [if_neg fun h => hpage h.2.2]
        ext v
        rw [findPage_eq_some hsorted, findPage_eq_some hok.sorted, mem_insertPage]
        constructor
        · rintro ⟨rfl | hv, heq⟩
          · exact absurd (heq.symm.trans hnew) hpage
          · exact ⟨hv, (hidx seg v hv).symm.trans heq⟩
        · rintro ⟨hv, heq⟩
          exact ⟨.inr hv, (hidx seg v hv).trans heq⟩
    · rw [Function.update_of_ne hseg, if_neg fun h => hseg h.2.1]
      exact findPage_congr (hidx _)
  · rw [if_neg fun h => hv h.1]
    have hnodes : (newPageNode st file f page contents).nodes file' = st.nodes file' :=
      Function.update_of_ne hv ..
    by_cases hfile : ∃ f', st.nodes file' = some (.file f')
    · obtain ⟨f', hf'⟩ := hfile
      rw [pageNodeOf_file (hnodes.trans hf'), pageNodeOf_file hf']
      exact findPage_congr fun v hv => pageIdx_newPageNode hwf file f page contents
        ((hwf.segs file' f' hf' _).node v hv)
    · have hno : ∀ f', st.nodes file' ≠ some (.file f') := fun f' h => hfile ⟨f', h⟩
      rw [pageNodeOf_not_file (by rwa [hnodes]), pageNodeOf_not_file hno]

end AddPage

/-! ## Preservation -/

theorem CacheOk.mono {cache : List TcacheEntry} (h : CacheOk st cache)
    (hgen : st'.gcGeneration = st.gcGeneration) (hseg : st'.segmentSize = st.segmentSize)
    (hpages : ∀ file lp pn, pageNodeOf st file lp = some pn → pageNodeOf st' file lp = some pn) :
    CacheOk st' cache := by
  intro e he hpop hg
  obtain ⟨file, seg, hkey, hlt, harr⟩ := h e he hpop (hg.trans hgen)
  refine ⟨file, seg, hkey, hlt, ?_⟩
  intro page hpage hne
  rw [hseg] at hpage ⊢
  exact hpages _ _ _ (harr page hpage hne)

theorem PagesWf.pad (hwf : PagesWf st) {f : FileNode} {contents : List FileContent}
    (hf : st.nodes file = some (.file f)) (hpages : segPages contents = segPages f.contents) :
    PagesWf { st with
      nodes := Function.update st.nodes file (some (.file { f with contents := contents })) } := by
  constructor
  · exact hwf.page_pos
  · exact hwf.seg_pos
  · exact hwf.pn_fresh
  · intro file' f' hf' k
    have hok : SegOk st (segPages f'.contents k) := by
      obtain ⟨-, h⟩ | ⟨-, h⟩ := update_some_iff.1 hf'
      · cases h
        simp only [hpages]
        exact hwf.segs file f hf k
      · exact hwf.segs file' f' h k
    exact ⟨hok.node, hok.index, hok.sorted⟩
  · intro file' f' hf' s hs
    obtain ⟨-, h⟩ | ⟨-, h⟩ := update_some_iff.1 hf'
    · cases h
      exact hwf.size_le file f hf s hs
    · exact hwf.size_le file' f' h s hs
  · exact hwf.cache.mono rfl rfl fun file' lp pn h => (pageNodeOf_pad hf hpages file' lp).trans h

theorem PagesWf.addPage (hwf : PagesWf st) {f : FileNode} {contents : List FileContent}
    {seg page : Nat} (hf : st.nodes file = some (.file f)) (hpage : page < st.segmentSize)
    (hnone : findPage st page (segPages f.contents seg) = none)
    (hpages : segPages contents = Function.update (segPages f.contents) seg
      (insertPage st page st.nextVp (segPages f.contents seg))) :
    PagesWf (newPageNode st file f page contents) := by
  have hnodes : ∀ v, (st.pageNodes v).isSome →
      (newPageNode st file f page contents).pageNodes v = st.pageNodes v :=
    fun v hv => newPageNode_pageNodes hwf file f page contents hv
  have hidx : ∀ v, (st.pageNodes v).isSome →
      pageIdx (newPageNode st file f page contents) v = pageIdx st v :=
    fun v hv => pageIdx_newPageNode hwf file f page contents hv
  have hnew : pageIdx (newPageNode st file f page contents) st.nextVp = page := by
    simp [pageIdx, newPageNode]
  -- an old segment is as it was
  have hkeep : ∀ pages, SegOk st pages → SegOk (newPageNode st file f page contents) pages := by
    intro pages hok
    refine ⟨fun pn hpn => ?_, fun pn hpn => ?_, hok.sorted.imp_of_mem fun {a b} ha hb hab => ?_⟩
    · rw [hnodes pn (hok.node pn hpn)]
      exact hok.node pn hpn
    · rw [hidx pn (hok.node pn hpn)]
      exact hok.index pn hpn
    · rwa [hidx a (hok.node a ha), hidx b (hok.node b hb)]
  constructor
  · exact hwf.page_pos
  · exact hwf.seg_pos
  · intro v hv
    have hle : st.nextVp + 1 ≤ v := hv
    refine (Function.update_of_ne ?_ ..).trans (hwf.pn_fresh v (by lia))
    lia
  · intro file' f' hf' k
    obtain ⟨-, h⟩ | ⟨-, h⟩ := update_some_iff.1 hf'
    · cases h
      simp only [hpages, Function.update_apply]
      split
      · have hok := hwf.segs file f hf seg
        refine ⟨fun pn hpn => ?_, fun pn hpn => ?_, ?_⟩
        · obtain rfl | hpn := mem_insertPage.1 hpn
          · simp [newPageNode]
          · exact (hkeep _ hok).node pn hpn
        · obtain rfl | hpn := mem_insertPage.1 hpn
          · rwa [hnew]
          · exact (hkeep _ hok).index pn hpn
        · exact sorted_insertPage hok.sorted hnone (fun v hv => hidx v (hok.node v hv)) hnew
      · exact hkeep _ (hwf.segs file f hf k)
    · exact hkeep _ (hwf.segs file' f' h k)
  · intro file' f' hf' s hs
    obtain ⟨-, h⟩ | ⟨-, h⟩ := update_some_iff.1 hf'
    · cases h
      exact hwf.size_le file f hf s hs
    · exact hwf.size_le file' f' h s hs
  · refine hwf.cache.mono rfl rfl fun file' lp pn h => ?_
    rw [pageNodeOf_addPage hwf hf hnone hpages]
    split
    · rename_i hc
      -- the page had no node
      obtain ⟨rfl, rfl, rfl⟩ := hc
      rw [pageNodeOf_file hf, hnone] at h
      cases h
    · exact h

theorem FileWf.pad (hwf : FileWf st) {f : FileNode} {contents : List FileContent}
    (hf : st.nodes file = some (.file f)) (hpages : segPages contents = segPages f.contents) :
    FileWf { st with
      nodes := Function.update st.nodes file (some (.file { f with contents := contents })) } := by
  obtain ⟨hpage, hseg, hfresh, hsegs, hsizes, hcache⟩ := hwf.pagesWf.pad hf hpages
  refine ⟨hpage, hseg, hfresh, hsegs, ?_, hwf.version, hwf.data_inj, ?_, hsizes, hcache⟩
  · intro file₁ lp₁ file₂ lp₂ pn h₁ h₂
    rw [pageNodeOf_pad hf hpages] at h₁ h₂
    exact hwf.pn_inj file₁ lp₁ file₂ lp₂ pn h₁ h₂
  · intro file' f' hf'
    obtain ⟨-, h⟩ | ⟨-, h⟩ := update_some_iff.1 hf'
    · cases h
      exact hwf.size_epoch file f hf
    · exact hwf.size_epoch file' f' h

theorem FileWf.addPage (hwf : FileWf st) {f : FileNode} {contents : List FileContent}
    {seg page : Nat} (hf : st.nodes file = some (.file f)) (hpage : page < st.segmentSize)
    (hnone : findPage st page (segPages f.contents seg) = none)
    (hpages : segPages contents = Function.update (segPages f.contents) seg
      (insertPage st page st.nextVp (segPages f.contents seg))) :
    FileWf (newPageNode st file f page contents) := by
  have hmap := pageNodeOf_addPage hwf.pagesWf hf hnone hpages
  have hunused : ∀ file' lp, pageNodeOf st file' lp ≠ some st.nextVp := by
    intro file' lp h
    have := hwf.pagesWf.pageNode_isSome h
    simp [hwf.pn_fresh st.nextVp (by lia)] at this
  -- a version of the new state is a version of an old node
  have hver : ∀ pn n v, (newPageNode st file f page contents).pageNodes pn = some n →
      v ∈ n.versions → st.pageNodes pn = some n := by
    intro pn n v hn hv
    obtain ⟨-, rfl⟩ | ⟨-, h⟩ := update_some_iff.1 hn
    · simp at hv
    · exact h
  obtain ⟨hps, hseg, hfresh, hsegs, hsizes, hcache⟩ := hwf.pagesWf.addPage hf hpage hnone hpages
  refine ⟨hps, hseg, hfresh, hsegs, ?_, ?_, ?_, ?_, hsizes, hcache⟩
  · intro file₁ lp₁ file₂ lp₂ pn h₁ h₂
    rw [hmap] at h₁ h₂
    split at h₁
    · rename_i hc₁
      cases h₁
      split at h₂
      · rename_i hc₂
        refine ⟨hc₁.1.trans hc₂.1.symm, ?_⟩
        rw [← Nat.div_add_mod lp₁ st.segmentSize, ← Nat.div_add_mod lp₂ st.segmentSize, hc₁.2.1,
          hc₁.2.2, hc₂.2.1, hc₂.2.2]
      · exact absurd h₂ (hunused _ _)
    · split at h₂
      · cases h₂
        exact absurd h₁ (hunused _ _)
      · exact hwf.pn_inj file₁ lp₁ file₂ lp₂ pn h₁ h₂
  · intro pn n hn v hv
    exact hwf.version pn n (hver pn n v hn hv) v hv
  · intro pn n v pn' n' v' hn hv hn' hv'
    exact hwf.data_inj pn n v pn' n' v' (hver pn n v hn hv) hv (hver pn' n' v' hn' hv') hv'
  · intro file' f' hf'
    obtain ⟨-, h⟩ | ⟨-, h⟩ := update_some_iff.1 hf'
    · cases h
      exact hwf.size_epoch file f hf
    · exact hwf.size_epoch file' f' h

theorem FileEdit.pagesWf (h : FileEdit st st') (hwf : PagesWf st) : PagesWf st' := by
  cases h with
  | cache cache next hcache =>
    refine ⟨hwf.page_pos, hwf.seg_pos, hwf.pn_fresh, fun file f hf k => ?_, hwf.size_le, hcache⟩
    have hok := hwf.segs file f hf k
    exact ⟨hok.node, hok.index, hok.sorted⟩
  | pad file f contents hf hpages => exact hwf.pad hf hpages
  | addPage file f contents seg page hf hpage hnone hpages =>
    exact hwf.addPage hf hpage hnone hpages

theorem FileEdit.fileWf (h : FileEdit st st') (hwf : FileWf st) : FileWf st' := by
  cases h with
  | cache cache next hcache =>
    exact ⟨hwf.1, hwf.2, hwf.3, fun file f hf k => ⟨(hwf.segs file f hf k).1, (hwf.segs file f hf k).2,
      (hwf.segs file f hf k).3⟩, hwf.5, hwf.6, hwf.7, hwf.8, hwf.9, hcache⟩
  | pad file f contents hf hpages => exact hwf.pad hf hpages
  | addPage file f contents seg page hf hpage hnone hpages =>
    exact hwf.addPage hf hpage hnone hpages

end SphereVFS
