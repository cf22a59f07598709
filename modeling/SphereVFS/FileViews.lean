import SphereVFS.Resolve
import SphereVFS.Commit

/-!
# SphereVFS.FileViews

What a reader sees of a file: its bytes as a function of their offset. `vfs_read` returns them, and
the edits of `tree_resolve_page` do not change them.
-/

namespace SphereVFS

variable {st st' : State} {file : VPtr} {f : FileNode} {R R' : Int}

/-- The page of a file a reader at `R` sees. -/
def pageView (st : State) (R : Int) (file : VPtr) (lp : Nat) : Page :=
  match pageNodeOf st file lp with
  | some pn => versionBytes st R pn
  | none => fun _ => 0

def fileByte (st : State) (R : Int) (file : VPtr) (i : Nat) : UInt8 :=
  pageView st R file (i / st.pageSize) (i % st.pageSize)

theorem versionBytes_congr {pn : VPtr} (hnode : st'.pageNodes pn = st.pageNodes pn)
    (htable : st'.mapperTable = st.mapperTable) (hdata : st'.data = st.data) :
    versionBytes st' R pn = versionBytes st R pn := by
  simp only [versionBytes, hnode, htable, hdata]

theorem FileEdit.keeps_view (h : FileEdit st st') (hwf : FileWf st) (R : Int) (file' : VPtr)
    (lp : Nat) : pageView st' R file' lp = pageView st R file' lp := by
  cases h with
  | cache => rfl
  | pad file f contents hf hpages =>
    simp only [pageView, pageNodeOf_pad hf hpages]
    rfl
  | addPage file f contents seg page hf hpage hnone hpages =>
    simp only [pageView, pageNodeOf_addPage hwf.pagesWf hf hnone hpages]
    by_cases hc : file' = file ∧ lp / st.segmentSize = seg ∧ lp % st.segmentSize = page
    · -- the new node has no versions and there was none before
      rw [if_pos hc]
      obtain ⟨rfl, rfl, rfl⟩ := hc
      rw [pageNodeOf_file hf, hnone]
      simp [versionBytes, newPageNode, chainWalk]
    · rw [if_neg hc]
      cases hpn : pageNodeOf st file' lp with
      | none => rfl
      | some pn =>
        exact versionBytes_congr (newPageNode_pageNodes hwf.pagesWf file f page contents
          (hwf.pagesWf.pageNode_isSome hpn)) rfl rfl

theorem FileEdit.versions (h : FileEdit st st') (hwf : FileWf st) {file' : VPtr} {lp : Nat}
    {pn : VPtr} (hpn : pageNodeOf st' file' lp = some pn) :
    pageNodeOf st file' lp = some pn ∧ versionsOf st' pn = versionsOf st pn ∨
      pageNodeOf st file' lp = none ∧ versionsOf st' pn = [] := by
  cases h with
  | cache => exact .inl ⟨hpn, rfl⟩
  | pad file f contents hf hpages =>
    rw [pageNodeOf_pad hf hpages] at hpn
    exact .inl ⟨hpn, rfl⟩
  | addPage file f contents seg page hf hpage hnone hpages =>
    rw [pageNodeOf_addPage hwf.pagesWf hf hnone hpages] at hpn
    split at hpn
    · rename_i hc
      cases hpn
      obtain ⟨rfl, rfl, rfl⟩ := hc
      exact .inr ⟨(pageNodeOf_file hf lp).trans hnone, by simp [versionsOf, newPageNode]⟩
    · have hnode := newPageNode_pageNodes hwf.pagesWf file f page contents (hwf.pagesWf.pageNode_isSome hpn)
      exact .inl ⟨hpn, by rw [versionsOf, versionsOf, hnode]⟩

theorem FileEdits.versions (h : FileEdits st st') (hwf : FileWf st) {file' : VPtr} {lp : Nat}
    {pn : VPtr} (hpn : pageNodeOf st' file' lp = some pn) :
    pageNodeOf st file' lp = some pn ∧ versionsOf st' pn = versionsOf st pn ∨
      pageNodeOf st file' lp = none ∧ versionsOf st' pn = [] := by
  induction h with
  | refl => exact .inl ⟨hpn, rfl⟩
  | @tail st₁ st₂ hedits hedit ih =>
    have hwf₁ := FileEdits.fileWf hedits hwf
    obtain ⟨hpn₁, hv⟩ | ⟨hnone, hv⟩ := hedit.versions hwf₁ hpn
    · obtain ⟨hpn₀, hv₀⟩ | ⟨hnone, hv₀⟩ := ih hpn₁
      · exact .inl ⟨hpn₀, hv.trans hv₀⟩
      · exact .inr ⟨hnone, hv.trans hv₀⟩
    · refine .inr ⟨?_, hv⟩
      cases hpn₀ : pageNodeOf st file' lp with
      | none => rfl
      | some pn₀ =>
        rw [FileEdits.keeps_page hedits hwf.pagesWf hpn₀] at hnone
        cases hnone

/-- What the edits of `tree_resolve_page` leave as it is. -/
structure FileEdits.Keeps (st st' : State) : Prop where
  fileWf : FileWf st'
  pageSize : st'.pageSize = st.pageSize
  segmentSize : st'.segmentSize = st.segmentSize
  nextPage : st'.nextPage = st.nextPage
  data : st'.data = st.data
  sizes : ∀ file f, st.nodes file = some (.file f) →
    ∃ f', st'.nodes file = some (.file f') ∧ f'.sizes = f.sizes
  view : ∀ R file lp, pageView st' R file lp = pageView st R file lp

theorem FileEdit.sizes (h : FileEdit st st') {file : VPtr} {f : FileNode}
    (hf : st.nodes file = some (.file f)) :
    ∃ f', st'.nodes file = some (.file f') ∧ f'.sizes = f.sizes := by
  cases h with
  | cache => exact ⟨f, hf, rfl⟩
  | pad file' g contents hg =>
    by_cases hv : file = file'
    · subst hv
      obtain rfl : f = g := by simpa [hf] using hg
      exact ⟨_, Function.update_self .., rfl⟩
    · exact ⟨f, (Function.update_of_ne hv ..).trans hf, rfl⟩
  | addPage file' g contents seg page hg =>
    by_cases hv : file = file'
    · subst hv
      obtain rfl : f = g := by simpa [hf] using hg
      exact ⟨_, Function.update_self .., rfl⟩
    · exact ⟨f, (Function.update_of_ne hv ..).trans hf, rfl⟩

theorem FileEdits.keeps (h : FileEdits st st') (hwf : FileWf st) : FileEdits.Keeps st st' := by
  induction h with
  | refl => exact ⟨hwf, rfl, rfl, rfl, rfl, fun _ f hf => ⟨f, hf, rfl⟩, fun _ _ _ => rfl⟩
  | tail _ hedit ih =>
    have hconst := hedit.const
    refine ⟨hedit.fileWf ih.fileWf, hconst.1.trans ih.pageSize, hconst.2.1.trans ih.segmentSize,
      hconst.2.2.1.trans ih.nextPage, hconst.2.2.2.trans ih.data, ?_, ?_⟩
    · intro file f hf
      obtain ⟨f₁, hf₁, hs₁⟩ := ih.sizes file f hf
      obtain ⟨f₂, hf₂, hs₂⟩ := hedit.sizes hf₁
      exact ⟨f₂, hf₂, hs₂.trans hs₁⟩
    · intro R file lp
      rw [hedit.keeps_view ih.fileWf, ih.view]

theorem FileEdits.Keeps.fileByte (h : FileEdits.Keeps st st') (R : Int) (file : VPtr) (i : Nat) :
    fileByte st' R file i = fileByte st R file i := by
  rw [SphereVFS.fileByte, SphereVFS.fileByte, h.pageSize, h.view]

/-! ## Reading -/

theorem pageBytes_eq (st : State) (hpos : 0 < st.pageSize) (R : Int) (file : VPtr)
    {page off count : Nat} (h : off + count ≤ st.pageSize) :
    pageBytes (pageView st R file page) off count =
      (List.range count).map fun k => fileByte st R file (page * st.pageSize + off + k) := by
  rw [pageBytes]
  apply List.map_congr_left
  intro k hk
  have hlt : off + k < st.pageSize := by
    have := List.mem_range.1 hk
    omega
  rw [fileByte, Nat.add_assoc, Nat.mul_comm, Nat.mul_add_div hpos, Nat.mul_add_mod,
    Nat.div_eq_of_lt hlt, Nat.mod_eq_of_lt hlt, Nat.add_zero]

theorem readPage_resolved {lp : Nat} {result : Option (VPtr × Bool) × State}
    (h : Resolved st file lp false result) (hwf : FileWf st) (off count : Nat) :
    readPage result.2 R off count result.1 = pageBytes (pageView st R file lp) off count := by
  have hread := h.read rfl
  match hr : result.1 with
  | none =>
    rw [hr] at hread
    simp [readPage, pageView, ← hread, pageBytes, List.map_const']
  | some (pn, pinned) =>
    rw [hr] at hread
    rw [← (h.edits.keeps hwf).view, pageView, h.edits.keeps_page hwf.pagesWf hread.symm, readPage]

theorem readLoop_spec (n : Nat) : ∀ (st : State) (f : FileNode) (page off remaining : Nat),
    FileWf st → st.nodes file = some (.file f) →
    (∀ lp < page + n, lp / st.segmentSize < 2 ^ 20) → off ≤ st.pageSize →
    off + remaining ≤ n * st.pageSize →
    FileEdits st (readLoop file R n st page off remaining).2 ∧
      (readLoop file R n st page off remaining).1 =
        (List.range remaining).map fun k => fileByte st R file (page * st.pageSize + off + k) := by
  induction n with
  | zero =>
    intro st f page off remaining _ _ _ _ hcover
    obtain rfl : remaining = 0 := by omega
    exact ⟨.refl, rfl⟩
  | succ n ih =>
    intro st f page off remaining hwf hf hsegs hoff hcover
    have hres := treeResolvePage_spec hwf.pagesWf hf (hsegs page (by omega)) false
    have hkeep := hres.edits.keeps hwf
    obtain ⟨f₁, hf₁, -⟩ := hkeep.sizes file f hf
    obtain ⟨hedits, hrest⟩ := ih _ f₁ (page + 1) 0 (remaining - min (st.pageSize - off) remaining)
      hkeep.fileWf hf₁
      (by intro lp hlp; rw [hkeep.segmentSize]; exact hsegs lp (by omega)) (Nat.zero_le _)
      (by rw [hkeep.pageSize]; rw [Nat.succ_mul] at hcover; omega)
    rw [readLoop]
    refine ⟨hres.edits.trans hedits, ?_⟩
    dsimp only
    rw [readPage_resolved hres hwf, hrest, pageBytes_eq st hwf.page_pos R file (by omega)]
    have hsplit : remaining = min (st.pageSize - off) remaining +
        (remaining - min (st.pageSize - off) remaining) := by omega
    conv_rhs => rw [hsplit, List.range_add, List.map_append, List.map_map]
    congr 1
    apply List.map_congr_left
    intro k hk
    have hk' := List.mem_range.1 hk
    -- there are bytes left, so this page was read to its end
    have hidx : (page + 1) * st.pageSize + 0 + k =
        page * st.pageSize + off + (min (st.pageSize - off) remaining + k) := by
      rw [Nat.succ_mul]
      omega
    rw [hkeep.fileByte, hkeep.pageSize, hidx]
    rfl

/-! ## The calls -/

theorem sizechainGet_le (hwf : PagesWf st) (hf : st.nodes file = some (.file f)) :
    sizechainGet st R f.sizes ≤ maxSize st := by
  rw [sizechainGet]
  split
  · rename_i s hs
    exact hwf.size_le file f hf s (mem_of_chainWalk hs)
  · exact Nat.zero_le _

theorem seg_lt_of_byte (hwf : PagesWf st) {i : Nat} (h : i < maxSize st) :
    i / st.pageSize / st.segmentSize < 2 ^ 20 := by
  rw [Nat.div_div_eq_div_mul, Nat.div_lt_iff_lt_mul (Nat.mul_pos hwf.page_pos hwf.seg_pos),
    Nat.mul_comm st.pageSize]
  exact h

def readCount (size offset count : Nat) : Nat := min count (size - offset)

theorem vfsRead_spec (hwf : FileWf st) (file : VPtr) {offset count : Nat} (hcount : 0 < count)
    (epoch : Int) :
    FileEdits st (vfsRead st file offset count epoch).2 ∧
      (vfsRead st file offset count epoch).1 =
        .ok ((List.range (readCount (vfsFileSize st file epoch).toNat offset count)).map fun k =>
          fileByte st (resolve st.mapperTable epoch) file (offset + k)) := by
  have hargs : ¬ ((count : Int) ≤ 0 ∨ (offset : Int) < 0) := by omega
  rw [vfsRead, if_neg hargs]
  dsimp only
  split
  · rename_i hsize
    have hzero : readCount (vfsFileSize st file epoch).toNat offset count = 0 := by
      rw [readCount]
      omega
    rw [hzero]
    exact ⟨.refl, rfl⟩
  rename_i hsize
  have hfile : ∃ f, st.nodes file = some (.file f) := by
    match hn : st.nodes file with
    | some (.file f) => exact ⟨f, rfl⟩
    | some (.dir d) => simp only [vfsFileSize, hn] at hsize; omega
    | none => simp only [vfsFileSize, hn] at hsize; omega
  obtain ⟨f, hf⟩ := hfile
  have hle : (vfsFileSize st file epoch).toNat ≤ maxSize st := by
    simp only [vfsFileSize, hf]
    exact sizechainGet_le hwf.pagesWf hf
  have hn : (if (offset : Int) + count > vfsFileSize st file epoch then
      vfsFileSize st file epoch - offset else (count : Int)).toNat =
      readCount (vfsFileSize st file epoch).toNat offset count := by
    rw [readCount]
    split <;> omega
  rw [hn, Int.toNat_natCast]
  have hpos : 0 < readCount (vfsFileSize st file epoch).toNat offset count := by
    rw [readCount]
    omega
  have hend : offset + readCount (vfsFileSize st file epoch).toNat offset count - 1 < maxSize st := by
    rw [readCount]
    omega
  revert hpos hend
  generalize readCount (vfsFileSize st file epoch).toNat offset count = m
  intro hpos hend
  have hpp := hwf.page_pos
  have hdiv : offset / st.pageSize ≤ (offset + m - 1) / st.pageSize := Nat.div_le_div_right (by omega)
  have hmod := Nat.div_add_mod offset st.pageSize
  have hmod' := Nat.div_add_mod (offset + m - 1) st.pageSize
  have hlt := Nat.mod_lt (offset + m - 1) hpp
  obtain ⟨hedits, hbytes⟩ := readLoop_spec (R := resolve st.mapperTable epoch)
    ((offset + m - 1) / st.pageSize - offset / st.pageSize + 1) st f (offset / st.pageSize)
    (offset % st.pageSize) m hwf hf
    (by
      intro lp hlp
      have hlp' : lp ≤ (offset + m - 1) / st.pageSize := by omega
      exact Nat.lt_of_le_of_lt (Nat.div_le_div_right hlp') (seg_lt_of_byte hwf.pagesWf hend))
    (Nat.le_of_lt (Nat.mod_lt _ hpp))
    (by
      rw [Nat.add_mul, Nat.sub_mul, Nat.one_mul, Nat.mul_comm _ st.pageSize,
        Nat.mul_comm (offset / st.pageSize) st.pageSize]
      have := Nat.mul_le_mul_left st.pageSize hdiv
      omega)
  refine ⟨hedits, ?_⟩
  rw [hbytes, Nat.mul_comm, hmod]

end SphereVFS
