import SphereVFS.FileInv

/-!
# SphereVFS.Resolve

`tree_resolve_page` finds the `PageNode` of a page: whichever way it takes (a cache hit, the walk
over the segments, a new node), its answer is that of the page map, and all it changes are edits
that add nodes without versions.
-/

namespace SphereVFS

variable {st st' : State} {file : VPtr} {f : FileNode} {seg page : Nat}

abbrev FileEdits : State → State → Prop := Relation.ReflTransGen FileEdit

theorem cacheKey_inj {file file' : VPtr} {seg seg' : Nat} (h : cacheKey file seg = cacheKey file' seg')
    (hs : seg < 2 ^ 20) (hs' : seg' < 2 ^ 20) : file = file' ∧ seg = seg' := by
  simp only [cacheKey, Nat.mod_eq_of_lt hs, Nat.mod_eq_of_lt hs'] at h
  constructor <;> lia

/-! ## The cache -/

theorem div_mod_page (hwf : PagesWf st) (lp : Nat) :
    lp / st.segmentSize * st.segmentSize + lp % st.segmentSize = lp ∧
      lp % st.segmentSize < st.segmentSize :=
  ⟨by rw [Nat.mul_comm]; exact Nat.div_add_mod lp st.segmentSize, Nat.mod_lt lp hwf.seg_pos⟩

structure SlotFor (st : State) (key : Nat) (e : TcacheEntry) : Prop where
  mem : e ∈ st.tcache
  key : e.key = key
  populated : e.populated = true
  gen : e.gen = st.gcGeneration

theorem SlotFor.pages {e : TcacheEntry} (h : SlotFor st (cacheKey file seg) e) (hwf : PagesWf st)
    (hseg : seg < 2 ^ 20) {page : Nat} (hpage : page < st.segmentSize) (hne : e.arr page ≠ 0) :
    pageNodeOf st file (seg * st.segmentSize + page) = some (e.arr page) := by
  obtain ⟨file', seg', hkey, hlt, harr⟩ := hwf.cache e h.mem h.populated h.gen
  obtain ⟨rfl, rfl⟩ := cacheKey_inj (h.key.symm.trans hkey) hseg hlt
  exact harr page hpage hne

theorem CacheOk.set {cache : List TcacheEntry} (h : CacheOk st cache) (i : Nat) {e : TcacheEntry}
    (he : CacheOk st [e]) : CacheOk st (cache.set i e) := by
  intro e' he'
  obtain he' | rfl := List.mem_or_eq_of_mem_set he'
  · exact h e' he'
  · exact he e' (List.mem_singleton.2 rfl)

theorem tcacheLookup_cases (st : State) (key page : Nat) :
    (∃ e, SlotFor st key e ∧ e.arr page ≠ 0 ∧ tcacheLookup st key page = (.hit (e.arr page), st)) ∨
    (∃ i e, SlotFor st key e ∧ st.tcache[i]? = some e ∧ tcacheLookup st key page = (.gap i, st)) ∨
    ∃ cache, (CacheOk st st.tcache → CacheOk st cache) ∧
      tcacheLookup st key page = (.miss, { st with tcache := cache }) := by
  rw [tcacheLookup]
  split
  · exact .inr (.inr ⟨st.tcache, id, rfl⟩)
  rename_i i hi
  split
  · exact .inr (.inr ⟨st.tcache, id, rfl⟩)
  rename_i e he
  obtain ⟨hlt, hpred, -⟩ := List.findIdx?_eq_some_iff_getElem.1 hi
  obtain ⟨hlt', heq⟩ := List.getElem?_eq_some_iff.1 he
  rw [heq, Bool.and_eq_true, beq_iff_eq] at hpred
  split
  · -- built before the last collection: the slot is dropped
    refine .inr (.inr ⟨_, fun h => h.set i ?_, rfl⟩)
    intro e' he' hpop
    rw [List.mem_singleton.1 he'] at hpop
    cases hpop
  rename_i hgen
  have hslot : SlotFor st key e :=
    ⟨heq ▸ List.getElem_mem hlt', hpred.1, hpred.2, by simpa using hgen⟩
  split
  · exact .inr (.inl ⟨i, e, hslot, he, rfl⟩)
  · rename_i hne
    exact .inl ⟨e, hslot, hne, rfl⟩

theorem SlotFor.patch {e : TcacheEntry} (h : SlotFor st (cacheKey file seg) e) (hwf : PagesWf st)
    (hseg : seg < 2 ^ 20) {pn : VPtr}
    (hpn : pageNodeOf st file (seg * st.segmentSize + page) = some pn) :
    CacheOk st [{ e with arr := Function.update e.arr page pn }] := by
  intro e' he' _ _
  rw [List.mem_singleton.1 he']
  refine ⟨file, seg, h.key, hseg, ?_⟩
  intro p hp hne
  dsimp only at hne ⊢
  by_cases hpp : p = page
  · subst hpp
    rw [Function.update_self, hpn]
  · rw [Function.update_of_ne hpp] at hne ⊢
    exact h.pages hwf hseg hp hne

def LookFor (st : State) (key : Nat) : CacheLookup → Prop
  | .gap i => ∃ e, SlotFor st key e ∧ st.tcache[i]? = some e
  | _ => True

theorem LookFor.congr {key : Nat} {look : CacheLookup} (h : LookFor st key look)
    (hcache : st'.tcache = st.tcache) (hgen : st'.gcGeneration = st.gcGeneration) :
    LookFor st' key look := by
  cases look with
  | hit pn => trivial
  | miss => trivial
  | gap i =>
    obtain ⟨e, hslot, he⟩ := h
    exact ⟨e, ⟨hcache ▸ hslot.mem, hslot.key, hslot.populated, hgen ▸ hslot.gen⟩, hcache ▸ he⟩

theorem tcachePatch_edits (hwf : PagesWf st) {look : CacheLookup} {lp : Nat}
    (hlook : LookFor st (cacheKey file (lp / st.segmentSize)) look)
    (hseg : lp / st.segmentSize < 2 ^ 20) {pn : VPtr} (hpn : pageNodeOf st file lp = some pn) :
    FileEdits st (tcachePatch st look (lp % st.segmentSize) pn) := by
  cases look with
  | hit pn => exact .refl
  | miss => exact .refl
  | gap i =>
    obtain ⟨e, hslot, he⟩ := hlook
    simp only [tcachePatch, he]
    refine .single (.cache _ st.tcacheNext (hwf.cache.set i (hslot.patch hwf hseg ?_)))
    rwa [(div_mod_page hwf lp).1]

theorem buildArray_mem (st : State) (pages : List VPtr) {p : Nat}
    (h : buildArray st pages p ≠ 0) :
    buildArray st pages p ∈ pages ∧ pageIdx st (buildArray st pages p) = p := by
  -- the array either keeps what it had at `p`, or has there a node of the list with this index
  have hfold : ∀ (pages : List VPtr) (arr : Nat → VPtr),
      pages.foldl (fun arr v =>
        if pageIdx st v < st.segmentSize then Function.update arr (pageIdx st v) v else arr) arr p =
          arr p ∨
      pages.foldl (fun arr v =>
        if pageIdx st v < st.segmentSize then Function.update arr (pageIdx st v) v else arr) arr p ∈
          pages ∧
      pageIdx st (pages.foldl (fun arr v =>
        if pageIdx st v < st.segmentSize then Function.update arr (pageIdx st v) v else arr) arr p) =
          p := by
    intro pages
    induction pages with
    | nil => intro arr; exact .inl rfl
    | cons x xs ih =>
      intro arr
      rw [List.foldl_cons]
      obtain h | ⟨hmem, hidx⟩ := ih
        (if pageIdx st x < st.segmentSize then Function.update arr (pageIdx st x) x else arr)
      · rw [h]
        split
        · by_cases hp : p = pageIdx st x
          · right
            simp [hp]
          · left
            rw [Function.update_of_ne hp]
        · exact .inl rfl
      · exact .inr ⟨List.mem_cons_of_mem x hmem, hidx⟩
  obtain h0 | h1 := hfold pages fun _ => 0
  · exact absurd h0 h
  · exact h1

theorem tcachePopulate_edits (hwf : PagesWf st) (hf : st.nodes file = some (.file f))
    (hseg : seg < 2 ^ 20) {fc : FileContent} (hfc : f.contents[seg]? = some fc) :
    FileEdits st (tcachePopulate st (cacheKey file seg) fc) := by
  rw [tcachePopulate]
  split
  · refine .single (.cache _ _ (hwf.cache.set _ ?_))
    intro e he _ _
    rw [List.mem_singleton.1 he]
    refine ⟨file, seg, rfl, hseg, ?_⟩
    intro p hp hne
    have hpages : segPages f.contents seg = fc.pages := by simp [segPages, hfc]
    obtain ⟨hmem, hidx⟩ := buildArray_mem st fc.pages hne
    have hdiv : (seg * st.segmentSize + p) / st.segmentSize = seg := by
      rw [Nat.mul_comm, Nat.mul_add_div hwf.seg_pos, Nat.div_eq_of_lt hp, Nat.add_zero]
    have hmod : (seg * st.segmentSize + p) % st.segmentSize = p := by
      rw [Nat.mul_comm, Nat.mul_add_mod, Nat.mod_eq_of_lt hp]
    rw [pageNodeOf_file hf, hdiv, hmod, hpages,
      findPage_eq_some (hpages ▸ (hwf.segs file f hf seg).sorted)]
    exact ⟨hmem, hidx⟩
  · exact .refl

/-! ## Segments -/

theorem segPages_padSegments (contents : List FileContent) (seg : Nat) :
    segPages (padSegments contents seg) = segPages contents := by
  funext k
  simp only [segPages, padSegments]
  by_cases hk : k < contents.length
  · rw [List.getElem?_append_left hk]
  · rw [List.getElem?_append_right (by omega), List.getElem?_eq_none (by omega : contents.length ≤ k),
      List.getElem?_replicate]
    split
    · rename_i fc hfc
      split at hfc
      · cases hfc
        rfl
      · cases hfc
    · rfl

theorem segPages_append (contents : List FileContent) (fc : FileContent) :
    segPages (contents ++ [fc]) = Function.update (segPages contents) contents.length fc.pages := by
  funext k
  by_cases hk : k = contents.length
  · simp [segPages, hk]
  · rw [Function.update_of_ne hk]
    simp only [segPages]
    by_cases hlt : k < contents.length
    · rw [List.getElem?_append_left hlt]
    · rw [List.getElem?_eq_none (by simp; omega), List.getElem?_eq_none (by omega)]

theorem segPages_set {contents : List FileContent} {seg : Nat} (h : seg < contents.length)
    (fc : FileContent) :
    segPages (contents.set seg fc) = Function.update (segPages contents) seg fc.pages := by
  funext k
  by_cases hk : k = seg
  · simp [segPages, hk, h]
  · rw [Function.update_of_ne hk]
    simp only [segPages]
    rw [List.getElem?_set_ne (Ne.symm hk)]

theorem length_padSegments {contents : List FileContent} {seg : Nat} (h : contents.length ≤ seg) :
    (padSegments contents seg).length = seg := by
  simp [padSegments]
  omega

/-! ## The call -/

theorem FileEdits.pagesWf (h : FileEdits st st') (hwf : PagesWf st) : PagesWf st' := by
  induction h with
  | refl => exact hwf
  | tail _ hedit ih => exact hedit.pagesWf ih

theorem FileEdits.fileWf (h : FileEdits st st') (hwf : FileWf st) : FileWf st' := by
  induction h with
  | refl => exact hwf
  | tail _ hedit ih => exact hedit.fileWf ih

theorem FileEdit.keeps_page (h : FileEdit st st') (hwf : PagesWf st) {file' : VPtr} {lp : Nat}
    {pn : VPtr} (hpn : pageNodeOf st file' lp = some pn) : pageNodeOf st' file' lp = some pn := by
  cases h with
  | cache => exact hpn
  | pad file f contents hf hpages => rwa [pageNodeOf_pad hf hpages]
  | addPage file f contents seg page hf hpage hnone hpages =>
    rw [pageNodeOf_addPage hwf hf hnone hpages]
    split
    · rename_i hc
      -- the page had no node
      obtain ⟨rfl, rfl, rfl⟩ := hc
      rw [pageNodeOf_file hf, hnone] at hpn
      cases hpn
    · exact hpn

theorem FileEdits.keeps_page (h : FileEdits st st') (hwf : PagesWf st) {file' : VPtr} {lp : Nat}
    {pn : VPtr} (hpn : pageNodeOf st file' lp = some pn) : pageNodeOf st' file' lp = some pn := by
  induction h with
  | refl => exact hpn
  | tail hedits hedit ih => exact hedit.keeps_page (FileEdits.pagesWf hedits hwf) ih

theorem FileEdits.const (h : FileEdits st st') :
    st'.pageSize = st.pageSize ∧ st'.segmentSize = st.segmentSize ∧ st'.nextPage = st.nextPage ∧
      st'.data = st.data := by
  induction h with
  | refl => exact ⟨rfl, rfl, rfl, rfl⟩
  | tail _ hedit ih =>
    obtain ⟨hps, hss, hnext, hdata⟩ := hedit.const
    exact ⟨hps.trans ih.1, hss.trans ih.2.1, hnext.trans ih.2.2.1, hdata.trans ih.2.2.2⟩

theorem FileEdits.dirsKept (h : FileEdits st st') : DirsKept st st' := by
  induction h with
  | refl => exact .refl st
  | tail _ hedit ih => exact ih.trans hedit.dirsKept

/-- The outcome of `tree_resolve_page` for page `lp` of `file`. -/
structure Resolved (st : State) (file : VPtr) (lp : Nat) (isWrite : Bool)
    (result : Option (VPtr × Bool) × State) : Prop where
  edits : FileEdits st result.2
  read : isWrite = false → result.1.map Prod.fst = pageNodeOf st file lp
  write : isWrite = true → ∃ pn pinned, result.1 = some (pn, pinned) ∧
    pageNodeOf result.2 file lp = some pn ∧ (pinned = false → pageNodeOf st file lp = some pn)
  others : ∀ lp', lp' ≠ lp → pageNodeOf result.2 file lp' = pageNodeOf st file lp'

theorem pageNodeOf_patch (st : State) (look : CacheLookup) (page : Nat) (pn file : VPtr) (lp : Nat) :
    pageNodeOf (tcachePatch st look page pn) file lp = pageNodeOf st file lp := by
  cases look with
  | hit _ | miss => rfl
  | gap i =>
    rw [tcachePatch]
    split <;> rfl

theorem pageNodeOf_populate (st : State) (key : Nat) (fc : FileContent) (file : VPtr) (lp : Nat) :
    pageNodeOf (tcachePopulate st key fc) file lp = pageNodeOf st file lp := by
  rw [tcachePopulate]
  split <;> rfl

theorem pageNodeOf_addPage_self (hwf : PagesWf st) {lp : Nat} {contents : List FileContent}
    (hf : st.nodes file = some (.file f))
    (hnone : findPage st (lp % st.segmentSize) (segPages f.contents (lp / st.segmentSize)) = none)
    (hpages : segPages contents = Function.update (segPages f.contents) (lp / st.segmentSize)
      (insertPage st (lp % st.segmentSize) st.nextVp (segPages f.contents (lp / st.segmentSize)))) :
    pageNodeOf (newPageNode st file f (lp % st.segmentSize) contents) file lp = some st.nextVp := by
  rw [pageNodeOf_addPage hwf hf hnone hpages, if_pos ⟨rfl, rfl, rfl⟩]

theorem pageNodeOf_addPage_ne (hwf : PagesWf st) {lp : Nat} {contents : List FileContent}
    (hf : st.nodes file = some (.file f))
    (hnone : findPage st (lp % st.segmentSize) (segPages f.contents (lp / st.segmentSize)) = none)
    (hpages : segPages contents = Function.update (segPages f.contents) (lp / st.segmentSize)
      (insertPage st (lp % st.segmentSize) st.nextVp (segPages f.contents (lp / st.segmentSize))))
    {lp' : Nat} (hne : lp' ≠ lp) :
    pageNodeOf (newPageNode st file f (lp % st.segmentSize) contents) file lp' = pageNodeOf st file lp' := by
  rw [pageNodeOf_addPage hwf hf hnone hpages, if_neg]
  rintro ⟨-, hdiv, hmod⟩
  exact hne (by rw [← Nat.div_add_mod lp' st.segmentSize, hdiv, hmod, Nat.div_add_mod])

theorem tcachePatch_keeps (st : State) (look : CacheLookup) (page : Nat) (pn : VPtr) :
    (tcachePatch st look page pn).nodes = st.nodes := by
  unfold tcachePatch
  split
  · split
    · rfl
    · rfl
  · rfl

/-- The common end of the slow path: the node `pn` of the page is put into the cache slot that had
a gap, and the segment may be cached. -/
theorem tail_edits (hwf : PagesWf st) (hf : st.nodes file = some (.file f)) {lp : Nat}
    (hseg : lp / st.segmentSize < 2 ^ 20) {look : CacheLookup}
    (hlook : LookFor st (cacheKey file (lp / st.segmentSize)) look) {pn : VPtr}
    (hpn : pageNodeOf st file lp = some pn) {fc : FileContent}
    (hfc : f.contents[lp / st.segmentSize]? = some fc) :
    FileEdits st (tcachePopulate (tcachePatch st look (lp % st.segmentSize) pn)
      (cacheKey file (lp / st.segmentSize)) fc) := by
  have hpatch := tcachePatch_edits hwf hlook hseg hpn
  refine hpatch.trans (tcachePopulate_edits (hpatch.pagesWf hwf) ?_ hseg hfc)
  rwa [tcachePatch_keeps]

theorem resolveSlow_spec (hwf : PagesWf st) (hf : st.nodes file = some (.file f)) {lp : Nat}
    (hseg : lp / st.segmentSize < 2 ^ 20) {look : CacheLookup}
    (hlook : LookFor st (cacheKey file (lp / st.segmentSize)) look) (isWrite : Bool) :
    Resolved st file lp isWrite
      (resolveSlow st file f (lp / st.segmentSize) (lp % st.segmentSize) isWrite look) := by
  have hpage := (div_mod_page hwf lp).2
  rw [resolveSlow]
  split
  · -- no such segment
    rename_i hnone
    have hlen : f.contents.length ≤ lp / st.segmentSize := List.getElem?_eq_none_iff.1 hnone
    have hempty : segPages f.contents (lp / st.segmentSize) = [] := by simp [segPages, hnone]
    have hfind : findPage st (lp % st.segmentSize)
        (segPages f.contents (lp / st.segmentSize)) = none := by
      rw [hempty]
      rfl
    cases isWrite with
    | true =>
      have hpages : segPages (padSegments f.contents (lp / st.segmentSize) ++ [⟨1, [st.nextVp]⟩]) =
          Function.update (segPages f.contents) (lp / st.segmentSize)
            (insertPage st (lp % st.segmentSize) st.nextVp
              (segPages f.contents (lp / st.segmentSize))) := by
        rw [segPages_append, length_padSegments hlen, segPages_padSegments, hempty]
        rfl
      have hadd : FileEdit st (newPageNode st file f (lp % st.segmentSize)
          (padSegments f.contents (lp / st.segmentSize) ++ [⟨1, [st.nextVp]⟩])) :=
        .addPage file f _ (lp / st.segmentSize) _ hf hpage hfind hpages
      have hpn := pageNodeOf_addPage_self hwf hf hfind hpages
      have hpatch := tcachePatch_edits (hadd.pagesWf hwf) (hlook.congr rfl rfl) hseg hpn
      refine ⟨(Relation.ReflTransGen.single hadd).trans hpatch, nofun, fun _ => ?_, fun lp' hne => ?_⟩
      · exact ⟨st.nextVp, true, rfl, hpatch.keeps_page (hadd.pagesWf hwf) hpn, nofun⟩
      · rw [if_pos rfl, pageNodeOf_patch, pageNodeOf_addPage_ne hwf hf hfind hpages hne]
    | false =>
      refine ⟨.single (.pad file f _ hf (segPages_padSegments ..)), fun _ => ?_, nofun,
        fun lp' _ => pageNodeOf_pad hf (segPages_padSegments ..) file lp'⟩
      rw [pageNodeOf_file hf, hfind]
      rfl
  · rename_i fc hfc
    have hpages : segPages f.contents (lp / st.segmentSize) = fc.pages := by simp [segPages, hfc]
    split
    · -- the walk finds the node
      rename_i pn hfind
      have hpn : pageNodeOf st file lp = some pn := by
        rw [pageNodeOf_file hf, hpages, hfind]
      have htail := tail_edits hwf hf hseg hlook hpn hfc
      refine ⟨htail, fun _ => hpn.symm, fun hw => ?_, fun lp' _ => ?_⟩
      · exact ⟨pn, isWrite, rfl, htail.keeps_page hwf hpn, fun _ => hpn⟩
      · rw [pageNodeOf_populate, pageNodeOf_patch]
    · rename_i hfind
      have hnone : findPage st (lp % st.segmentSize)
          (segPages f.contents (lp / st.segmentSize)) = none := by rw [hpages, hfind]
      cases isWrite with
      | true =>
        have hlt : lp / st.segmentSize < f.contents.length := (List.getElem?_eq_some_iff.1 hfc).1
        have hset := segPages_set hlt
          ⟨fc.pageCount + 1, insertPage st (lp % st.segmentSize) st.nextVp fc.pages⟩
        rw [← hpages] at hset
        have hother : ∀ lp', lp' ≠ lp → _ := fun lp' => pageNodeOf_addPage_ne hwf hf hnone hset
        have hadd := FileEdit.addPage file f _ (lp / st.segmentSize) _ hf hpage hnone
          hset
        have hpn := pageNodeOf_addPage_self hwf hf hnone hset
        have htail := tail_edits (hadd.pagesWf hwf) (Function.update_self ..) hseg
          (hlook.congr rfl rfl) hpn (List.getElem?_set_self hlt)
        rw [hpages] at hadd hpn htail hother
        refine ⟨(Relation.ReflTransGen.single hadd).trans htail, nofun, fun _ => ?_, fun lp' hne => ?_⟩
        · exact ⟨st.nextVp, true, rfl, htail.keeps_page (hadd.pagesWf hwf) hpn, nofun⟩
        · rw [if_pos rfl, pageNodeOf_populate, pageNodeOf_patch, hother lp' hne]
      | false =>
        refine ⟨.refl, fun _ => ?_, nofun, fun _ _ => rfl⟩
        rw [pageNodeOf_file hf, hnone]
        rfl

theorem treeResolvePage_spec (hwf : PagesWf st) (hf : st.nodes file = some (.file f)) {lp : Nat}
    (hseg : lp / st.segmentSize < 2 ^ 20) (isWrite : Bool) :
    Resolved st file lp isWrite (treeResolvePage st file lp isWrite) := by
  obtain ⟨hlp, hpage⟩ := div_mod_page hwf lp
  simp only [treeResolvePage, hf]
  obtain ⟨e, hslot, hne, hhit⟩ | ⟨i, e, hslot, he, hgap⟩ | ⟨cache, hcache, hmiss⟩ :=
    tcacheLookup_cases st (cacheKey file (lp / st.segmentSize)) (lp % st.segmentSize)
  · have hpn := hslot.pages hwf hseg hpage hne
    rw [hlp] at hpn
    rw [hhit]
    exact ⟨.refl, fun _ => hpn.symm, fun _ => ⟨_, false, rfl, hpn, fun _ => hpn⟩, fun _ _ => rfl⟩
  · rw [hgap]
    have hlook : LookFor st (cacheKey file (lp / st.segmentSize)) (.gap i) := ⟨e, hslot, he⟩
    exact resolveSlow_spec hwf hf hseg hlook isWrite
  · rw [hmiss]
    have hedit : FileEdit st { st with tcache := cache } := .cache cache _ (hcache hwf.cache)
    have hlook : LookFor { st with tcache := cache } (cacheKey file (lp / st.segmentSize)) .miss :=
      trivial
    have hslow := resolveSlow_spec (hedit.pagesWf hwf) hf hseg hlook isWrite
    exact ⟨(Relation.ReflTransGen.single hedit).trans hslow.edits, hslow.read, hslow.write, hslow.others⟩

end SphereVFS
