import SphereVFS.FileViews

/-!
# SphereVFS.WriteInv

The edits of `vfs_write` and `vfs_truncate` at an epoch: they keep the invariant, and readers at
other epochs see the same bytes and sizes afterwards.
-/

namespace SphereVFS

variable {st st' st'' : State} {file : VPtr} {f : FileNode} {epoch R R' R'' : Int}

abbrev addVersion (st : State) (pn : VPtr) (n : PageNode) (p : Page) (epoch : Int) : State := { st with
  data := Function.update st.data st.nextPage (some p)
  nextPage := st.nextPage + 1
  pageNodes := Function.update st.pageNodes pn
    (some { n with versions := ⟨u32 epoch, st.nextPage⟩ :: n.versions }) }

abbrev addSize (st : State) (file : VPtr) (f : FileNode) (n : Nat) (epoch : Int) : State := { st with
  nodes := Function.update st.nodes file (some (.file { f with sizes := ⟨u32 epoch, n⟩ :: f.sizes })) }

inductive WriteEdit (epoch : Int) (st : State) : State → Prop
  | resolve (st' : State) (h : FileEdit st st') : WriteEdit epoch st st'
  | inPlace (pn : VPtr) (n : PageNode) (v : VersionPage) (p : Page)
      (hn : st.pageNodes pn = some n) (hv : v ∈ n.versions) (he : v.epoch = u32 epoch) :
      WriteEdit epoch st { st with data := Function.update st.data v.dataPage (some p) }
  | version (pn : VPtr) (n : PageNode) (p : Page) (hn : st.pageNodes pn = some n) :
      WriteEdit epoch st (addVersion st pn n p epoch)
  | lost (p : Page) :
      WriteEdit epoch st { st with
        data := Function.update st.data st.nextPage (some p)
        nextPage := st.nextPage + 1 }
  | size (file : VPtr) (f : FileNode) (n : Nat) (hf : st.nodes file = some (.file f))
      (hn : n ≤ maxSize st) :
      WriteEdit epoch st (addSize st file f n epoch)
  | bin (entries : List BinEntry) : WriteEdit epoch st { st with bin := entries }

abbrev WriteEdits (epoch : Int) : State → State → Prop := Relation.ReflTransGen (WriteEdit epoch)

theorem FileEdits.writeEdits (h : FileEdits st st') (epoch : Int) : WriteEdits epoch st st' := by
  induction h with
  | refl => exact .refl
  | tail _ hedit ih => exact ih.tail (.resolve _ hedit)

theorem WriteEdit.dirsKept (h : WriteEdit epoch st st') : DirsKept st st' := by
  cases h with
  | resolve st' h => exact h.dirsKept
  | inPlace => exact .of_nodes_eq rfl rfl rfl rfl rfl rfl (Nat.le_refl _)
  | version => exact .of_nodes_eq rfl rfl rfl rfl rfl rfl (Nat.le_refl _)
  | lost => exact .of_nodes_eq rfl rfl rfl rfl rfl rfl (Nat.le_refl _)
  | size file f n hf => exact .of_update hf rfl rfl rfl rfl rfl rfl (Nat.le_refl _)
  | bin => exact .of_nodes_eq rfl rfl rfl rfl rfl rfl (Nat.le_refl _)

theorem WriteEdits.dirsKept (h : WriteEdits epoch st st') : DirsKept st st' := by
  induction h with
  | refl => exact .refl st
  | tail _ hedit ih => exact ih.trans hedit.dirsKept

/-! ## The invariant -/

theorem FileWf.version_ne_nextPage (hwf : FileWf st) {pn : VPtr} {n : PageNode} {v : VersionPage}
    (hn : st.pageNodes pn = some n) (hv : v ∈ n.versions) : v.dataPage ≠ st.nextPage := by
  have := (hwf.version pn n hn v hv).2.2
  omega

theorem pageNodeOf_congr (hseg : st'.segmentSize = st.segmentSize)
    (hidx : ∀ v, pageIdx st' v = pageIdx st v)
    (hfile : ∀ f, st.nodes file = some (.file f) →
      ∃ f', st'.nodes file = some (.file f') ∧ segPages f'.contents = segPages f.contents)
    (hno : ∀ f', st'.nodes file = some (.file f') → ∃ f, st.nodes file = some (.file f)) (lp : Nat) :
    pageNodeOf st' file lp = pageNodeOf st file lp := by
  by_cases h : ∃ f, st.nodes file = some (.file f)
  · obtain ⟨f, hf⟩ := h
    obtain ⟨f', hf', hpages⟩ := hfile f hf
    rw [pageNodeOf_file hf, pageNodeOf_file hf', hseg, hpages]
    exact findPage_congr fun v _ => hidx v
  · have hn : ∀ f, st.nodes file ≠ some (.file f) := fun f hf => h ⟨f, hf⟩
    rw [pageNodeOf_not_file hn, pageNodeOf_not_file fun f' hf' => h (hno f' hf')]

theorem pageIdx_version {pn : VPtr} {n : PageNode} {p : Page} (hn : st.pageNodes pn = some n)
    (v : VPtr) : pageIdx (addVersion st pn n p epoch) v = pageIdx st v := by
  by_cases hv : v = pn
  · simp [pageIdx, hv, hn]
  · simp [pageIdx, hv]

theorem pageNodeOf_version {pn : VPtr} {n : PageNode} (hn : st.pageNodes pn = some n) (p : Page)
    (epoch : Int) (file : VPtr) (lp : Nat) :
    pageNodeOf (addVersion st pn n p epoch) file lp = pageNodeOf st file lp := by
  refine pageNodeOf_congr ?_ (pageIdx_version hn) ?_ ?_ lp
  · rfl
  · exact fun f hf => ⟨f, hf, rfl⟩
  · exact fun f hf => ⟨f, hf⟩

theorem pageNodeOf_size (hf : st.nodes file = some (.file f)) (n : Nat) (epoch : Int) (file' : VPtr)
    (lp : Nat) :
    pageNodeOf (addSize st file f n epoch) file' lp = pageNodeOf st file' lp := by
  refine pageNodeOf_congr ?_ ?_ (fun g hg => ?_) (fun g hg => ?_) lp
  · rfl
  · exact fun _ => rfl
  · by_cases hv : file' = file
    · subst hv
      obtain rfl : g = f := by simpa [hg] using hf
      exact ⟨_, Function.update_self .., rfl⟩
    · exact ⟨g, (Function.update_of_ne hv ..).trans hg, rfl⟩
  · by_cases hv : file' = file
    · exact ⟨f, hv ▸ hf⟩
    · exact ⟨g, (Function.update_of_ne hv ..).symm.trans hg⟩

theorem WriteEdit.keeps_page (h : WriteEdit epoch st st') (hwf : PagesWf st) {file : VPtr}
    {lp : Nat} {pn : VPtr} (hpn : pageNodeOf st file lp = some pn) :
    pageNodeOf st' file lp = some pn := by
  cases h with
  | resolve st' h => exact h.keeps_page hwf hpn
  | inPlace => exact hpn
  | version pn' n p hn => rwa [pageNodeOf_version hn]
  | lost => exact hpn
  | size file' f n hf => rwa [pageNodeOf_size hf]
  | bin => exact hpn

theorem SegOk.congr {pages : List VPtr} (h : SegOk st pages)
    (hsome : ∀ v, (st.pageNodes v).isSome → (st'.pageNodes v).isSome)
    (hidx : ∀ v, pageIdx st' v = pageIdx st v) (hseg : st'.segmentSize = st.segmentSize) :
    SegOk st' pages where
  node := fun pn hpn => hsome pn (h.node pn hpn)
  index := fun pn hpn => by rw [hidx, hseg]; exact h.index pn hpn
  sorted := h.sorted.imp fun {a b} hab => by rwa [hidx, hidx]

theorem PagesWf.of_map (hwf : PagesWf st) (hps : st'.pageSize = st.pageSize)
    (hss : st'.segmentSize = st.segmentSize) (hvp : st'.nextVp = st.nextVp)
    (hsome : ∀ v, (st'.pageNodes v).isSome ↔ (st.pageNodes v).isSome)
    (hidx : ∀ v, pageIdx st' v = pageIdx st v)
    (hfiles : ∀ file f', st'.nodes file = some (.file f') →
      ∃ f, st.nodes file = some (.file f) ∧ f'.contents = f.contents ∧
        ∀ s ∈ f'.sizes, s ∈ f.sizes ∨ s.size ≤ maxSize st)
    (hmap : ∀ file lp, pageNodeOf st' file lp = pageNodeOf st file lp)
    (hcache : st'.tcache = st.tcache) (hgen : st'.gcGeneration = st.gcGeneration) : PagesWf st' := by
  constructor
  · rw [hps]; exact hwf.page_pos
  · rw [hss]; exact hwf.seg_pos
  · intro v hv
    rw [hvp] at hv
    have hold := hwf.pn_fresh v hv
    rw [← Option.not_isSome_iff_eq_none, hsome, Option.not_isSome_iff_eq_none]
    exact hold
  · intro file f' hf' k
    obtain ⟨f, hf, hcontents, -⟩ := hfiles file f' hf'
    rw [hcontents]
    exact (hwf.segs file f hf k).congr (fun v hv => (hsome v).2 hv) hidx hss
  · intro file f' hf' s hs
    obtain ⟨f, hf, -, hsizes⟩ := hfiles file f' hf'
    rw [maxSize, hps, hss]
    obtain hs | hs := hsizes s hs
    · exact hwf.size_le file f hf s hs
    · exact hs
  · rw [hcache]
    exact hwf.cache.mono hgen hss fun file lp pn h => (hmap file lp).trans h

theorem PagesWf.addVersion (hwf : PagesWf st) {pn : VPtr} {n : PageNode}
    (hn : st.pageNodes pn = some n) (p : Page) (epoch : Int) : PagesWf (addVersion st pn n p epoch) := by
  refine hwf.of_map rfl rfl rfl (fun v => ?_) (pageIdx_version hn)
    (fun file f hf => ⟨f, hf, rfl, fun s hs => .inl hs⟩) (pageNodeOf_version hn p epoch) rfl rfl
  show (Function.update st.pageNodes pn _ v).isSome ↔ _
  rw [Function.update_apply]
  split
  · rename_i heq
    rw [heq, hn]
    exact .rfl
  · exact .rfl

theorem PagesWf.addSize (hwf : PagesWf st) (hf : st.nodes file = some (.file f)) {n : Nat}
    (hn : n ≤ maxSize st) (epoch : Int) : PagesWf (addSize st file f n epoch) := by
  refine hwf.of_map rfl rfl rfl (fun v => .rfl) (fun v => rfl) (fun file' f' hf' => ?_)
    (pageNodeOf_size hf n epoch) rfl rfl
  obtain ⟨rfl, h⟩ | ⟨-, h⟩ := update_some_iff.1 hf'
  · cases h
    refine ⟨f, hf, rfl, fun s hs => ?_⟩
    obtain rfl | hs := List.mem_cons.1 hs
    · exact .inr hn
    · exact .inl hs
  · exact ⟨f', h, rfl, fun s hs => .inl hs⟩

theorem WriteEdit.pagesWf (h : WriteEdit epoch st st') (hwf : PagesWf st) : PagesWf st' := by
  have hdata : ∀ (data : Nat → Option Page) (nextPage : Nat) (bin : List BinEntry),
      PagesWf { st with data := data, nextPage := nextPage, bin := bin } := fun data nextPage bin =>
    hwf.of_map rfl rfl rfl (fun _ => .rfl) (fun _ => rfl) (fun file f hf => ⟨f, hf, rfl, fun s hs => .inl hs⟩)
      (fun _ _ => rfl) rfl rfl
  cases h with
  | resolve st' h => exact h.pagesWf hwf
  | inPlace => exact hdata _ _ _
  | version pn n p hn => exact hwf.addVersion hn p epoch
  | lost => exact hdata _ _ _
  | size file f n hf hn => exact hwf.addSize hf hn epoch
  | bin => exact hdata _ _ _

theorem WriteEdits.pagesWf (h : WriteEdits epoch st st') (hwf : PagesWf st) : PagesWf st' := by
  induction h with
  | refl => exact hwf
  | tail _ hedit ih => exact hedit.pagesWf ih

theorem WriteEdits.keeps_page (h : WriteEdits epoch st st') (hwf : PagesWf st) {file : VPtr} {lp : Nat}
    {pn : VPtr} (hpn : pageNodeOf st file lp = some pn) : pageNodeOf st' file lp = some pn := by
  induction h with
  | refl => exact hpn
  | tail hedits hedit ih => exact hedit.keeps_page (WriteEdits.pagesWf hedits hwf) ih

theorem WriteEdit.const (h : WriteEdit epoch st st') :
    st'.pageSize = st.pageSize ∧ st'.segmentSize = st.segmentSize := by
  cases h with
  | resolve st' h => exact ⟨h.const.1, h.const.2.1⟩
  | _ => exact ⟨rfl, rfl⟩

theorem WriteEdits.const (h : WriteEdits epoch st st') :
    st'.pageSize = st.pageSize ∧ st'.segmentSize = st.segmentSize := by
  induction h with
  | refl => exact ⟨rfl, rfl⟩
  | tail _ hedit ih => exact ⟨hedit.const.1.trans ih.1, hedit.const.2.trans ih.2⟩

theorem WriteEdits.maxSize (h : WriteEdits epoch st st') : maxSize st' = maxSize st := by
  obtain ⟨hps, hss⟩ := WriteEdits.const h
  rw [SphereVFS.maxSize, SphereVFS.maxSize, hps, hss]

/-- The invariant does not depend on what the data pages hold, nor on the directory side, and the
segment cache may be another one. -/
theorem FileWf.of_cache (hwf : FileWf st) (hps : st'.pageSize = st.pageSize)
    (hss : st'.segmentSize = st.segmentSize) (hnodes : st'.nodes = st.nodes)
    (hpn : st'.pageNodes = st.pageNodes) (hvp : st'.nextVp = st.nextVp)
    (hpage : st.nextPage ≤ st'.nextPage) (hepoch : st.currentEpoch ≤ st'.currentEpoch)
    (hcache : (∀ file lp, pageNodeOf st' file lp = pageNodeOf st file lp) → CacheOk st' st'.tcache) :
    FileWf st' := by
  have hmap : ∀ file lp, pageNodeOf st' file lp = pageNodeOf st file lp := by
    intro file lp
    refine pageNodeOf_congr hss (fun v => pageIdx_congr (by rw [hpn])) ?_ ?_ lp
    · exact fun f hf => ⟨f, by rw [hnodes, hf], rfl⟩
    · exact fun f hf => ⟨f, by rw [← hnodes, hf]⟩
  constructor
  · rw [hps]; exact hwf.page_pos
  · rw [hss]; exact hwf.seg_pos
  · rw [hvp, hpn]; exact hwf.pn_fresh
  · intro file f hf k
    rw [hnodes] at hf
    exact (hwf.segs file f hf k).congr (by rw [hpn]; exact fun _ h => h)
      (fun v => pageIdx_congr (by rw [hpn])) hss
  · intro file lp file' lp' pn h h'
    rw [hmap] at h h'
    exact hwf.pn_inj file lp file' lp' pn h h'
  · intro pn n hn v hv
    rw [hpn] at hn
    obtain ⟨h0, hle, hlt⟩ := hwf.version pn n hn v hv
    exact ⟨h0, Int.le_trans hle hepoch, Nat.lt_of_lt_of_le hlt hpage⟩
  · rw [hpn]; exact hwf.data_inj
  · intro file f hf s hs
    rw [hnodes] at hf
    obtain ⟨h0, hle⟩ := hwf.size_epoch file f hf s hs
    exact ⟨h0, Int.le_trans hle hepoch⟩
  · intro file f hf s hs
    rw [hnodes] at hf
    rw [maxSize, hps, hss]
    exact hwf.size_le file f hf s hs
  · exact hcache hmap

theorem FileWf.of_eq (hwf : FileWf st) (hps : st'.pageSize = st.pageSize)
    (hss : st'.segmentSize = st.segmentSize) (hnodes : st'.nodes = st.nodes)
    (hpn : st'.pageNodes = st.pageNodes) (hvp : st'.nextVp = st.nextVp)
    (hpage : st.nextPage ≤ st'.nextPage) (hepoch : st.currentEpoch ≤ st'.currentEpoch)
    (hcache : st'.tcache = st.tcache) (hgen : st'.gcGeneration = st.gcGeneration) : FileWf st' := by
  refine hwf.of_cache hps hss hnodes hpn hvp hpage hepoch fun hmap => ?_
  rw [hcache]
  exact hwf.cache.mono hgen hss fun file lp pn h => (hmap file lp).trans h

theorem FileWf.addVersion (hwf : FileWf st) {pn : VPtr} {n : PageNode} {p : Page}
    (hn : st.pageNodes pn = some n) (h0 : 0 ≤ u32 epoch) (hle : u32 epoch ≤ st.currentEpoch) :
    FileWf (addVersion st pn n p epoch) := by
  -- a version of the new state is the new one, or an old one of the same node
  have hver : ∀ pn' n' v, (SphereVFS.addVersion st pn n p epoch).pageNodes pn' = some n' →
      v ∈ n'.versions → pn' = pn ∧ v = ⟨u32 epoch, st.nextPage⟩ ∨
        ∃ n₀, st.pageNodes pn' = some n₀ ∧ v ∈ n₀.versions := by
    intro pn' n' v hn' hv
    obtain ⟨rfl, rfl⟩ | ⟨-, hn'⟩ := update_some_iff.1 hn'
    · obtain rfl | hv := List.mem_cons.1 hv
      · exact .inl ⟨rfl, rfl⟩
      · exact .inr ⟨n, hn, hv⟩
    · exact .inr ⟨n', hn', hv⟩
  obtain ⟨hps, hss, hfresh, hsegs, hsizes, hcache⟩ := hwf.pagesWf.addVersion hn p epoch
  refine ⟨hps, hss, hfresh, hsegs, ?_, ?_, ?_, hwf.size_epoch, hsizes, hcache⟩
  · intro file lp file' lp' pn' h h'
    rw [pageNodeOf_version hn p epoch] at h h'
    exact hwf.pn_inj file lp file' lp' pn' h h'
  · intro pn' n' hn' v hv
    obtain ⟨-, rfl⟩ | ⟨n₀, hn₀, hv⟩ := hver pn' n' v hn' hv
    · exact ⟨h0, hle, Nat.lt_succ_self _⟩
    · obtain ⟨h0', hle', hlt⟩ := hwf.version pn' n₀ hn₀ v hv
      exact ⟨h0', hle', Nat.lt_succ_of_lt hlt⟩
  · intro pn₁ n₁ v₁ pn₂ n₂ v₂ hn₁ hv₁ hn₂ hv₂ heq
    obtain ⟨h₁, rfl⟩ | ⟨m₁, hm₁, hv₁⟩ := hver pn₁ n₁ v₁ hn₁ hv₁
    · obtain ⟨h₂, rfl⟩ | ⟨m₂, hm₂, hv₂⟩ := hver pn₂ n₂ v₂ hn₂ hv₂
      · exact ⟨h₁.trans h₂.symm, rfl⟩
      · exact absurd heq.symm (hwf.version_ne_nextPage hm₂ hv₂)
    · obtain ⟨h₂, rfl⟩ | ⟨m₂, hm₂, hv₂⟩ := hver pn₂ n₂ v₂ hn₂ hv₂
      · exact absurd heq (hwf.version_ne_nextPage hm₁ hv₁)
      · exact hwf.data_inj pn₁ m₁ v₁ pn₂ m₂ v₂ hm₁ hv₁ hm₂ hv₂ heq

theorem FileWf.addSize (hwf : FileWf st) (hf : st.nodes file = some (.file f)) {n : Nat}
    (hn : n ≤ maxSize st) (h0 : 0 ≤ u32 epoch) (hle : u32 epoch ≤ st.currentEpoch) :
    FileWf (addSize st file f n epoch) := by
  obtain ⟨hps, hss, hfresh, hsegs, hsizes, hcache⟩ := hwf.pagesWf.addSize hf hn epoch
  refine ⟨hps, hss, hfresh, hsegs, ?_, hwf.version, hwf.data_inj, ?_, hsizes, hcache⟩
  · intro file₁ lp₁ file₂ lp₂ pn h₁ h₂
    rw [pageNodeOf_size hf n epoch] at h₁ h₂
    exact hwf.pn_inj file₁ lp₁ file₂ lp₂ pn h₁ h₂
  · intro file' f' hf' s hs
    obtain ⟨-, h⟩ | ⟨-, h⟩ := update_some_iff.1 hf'
    · cases h
      obtain rfl | hs := List.mem_cons.1 hs
      · exact ⟨h0, hle⟩
      · exact hwf.size_epoch file f hf s hs
    · exact hwf.size_epoch file' f' h s hs

theorem WriteEdit.fileWf (h : WriteEdit epoch st st') (hep : EpochWf st) (he : Writable st epoch)
    (hwf : FileWf st) : FileWf st' := by
  obtain ⟨h0, hle⟩ := hep.u32_range he
  cases h with
  | resolve st' h => exact h.fileWf hwf
  | inPlace => exact hwf.of_eq rfl rfl rfl rfl rfl (Nat.le_refl _) (Int.le_refl _) rfl rfl
  | version pn n p hn => exact hwf.addVersion hn h0 hle
  | lost => exact hwf.of_eq rfl rfl rfl rfl rfl (Nat.le_succ _) (Int.le_refl _) rfl rfl
  | size file f n hf hn => exact hwf.addSize hf hn h0 hle
  | bin => exact hwf.of_eq rfl rfl rfl rfl rfl (Nat.le_refl _) (Int.le_refl _) rfl rfl

/-! ## Readers at other epochs -/

/-- A reader at `R'` of `st'` sees the sizes and bytes that a reader at `R` of `st` sees. -/
structure SameFiles (st : State) (R : Int) (st' : State) (R' : Int) : Prop where
  pageSize : st'.pageSize = st.pageSize
  sizes : ∀ file f, st.nodes file = some (.file f) → ∃ f', st'.nodes file = some (.file f') ∧
    sizechainGet st' R' f'.sizes = sizechainGet st R f.sizes
  view : ∀ file lp, pageView st' R' file lp = pageView st R file lp

theorem SameFiles.refl (st : State) (R : Int) : SameFiles st R st R :=
  ⟨rfl, fun _ f hf => ⟨f, hf, rfl⟩, fun _ _ => rfl⟩

theorem SameFiles.trans (h : SameFiles st R st' R') (h' : SameFiles st' R' st'' R'') :
    SameFiles st R st'' R'' where
  pageSize := h'.pageSize.trans h.pageSize
  sizes := by
    intro file f hf
    obtain ⟨f₁, hf₁, hs₁⟩ := h.sizes file f hf
    obtain ⟨f₂, hf₂, hs₂⟩ := h'.sizes file f₁ hf₁
    exact ⟨f₂, hf₂, hs₂.trans hs₁⟩
  view := fun file lp => (h'.view file lp).trans (h.view file lp)

def visibleVersion (st : State) (R : Int) (pn : VPtr) : Option VersionPage :=
  (st.pageNodes pn).bind fun n => chainWalk VersionPage.epoch st.mapperTable R n.versions

theorem versionBytes_eq (st : State) (R : Int) (pn : VPtr) :
    versionBytes st R pn =
      match visibleVersion st R pn with
      | some v => (st.data v.dataPage).getD fun _ => 0
      | none => fun _ => 0 := by
  rw [versionBytes, visibleVersion]
  cases st.pageNodes pn with
  | none => rfl
  | some n =>
    dsimp only [Option.bind_some]
    cases chainWalk VersionPage.epoch st.mapperTable R n.versions <;> rfl

theorem versionBytes_same {pn : VPtr} (hv : visibleVersion st' R' pn = visibleVersion st R pn)
    (hdata : ∀ v, visibleVersion st R pn = some v → st'.data v.dataPage = st.data v.dataPage) :
    versionBytes st' R' pn = versionBytes st R pn := by
  rw [versionBytes_eq, versionBytes_eq, hv]
  cases h : visibleVersion st R pn with
  | none => rfl
  | some v => dsimp only; rw [hdata v h]

theorem visibleVersion_mem {pn : VPtr} {v : VersionPage} (h : visibleVersion st R pn = some v) :
    ∃ n, st.pageNodes pn = some n ∧ v ∈ n.versions ∧
      applicable st.mapperTable R v.epoch = true := by
  obtain ⟨n, hn, hv⟩ := Option.bind_eq_some_iff.1 h
  exact ⟨n, hn, mem_of_chainWalk hv, applicable_of_chainWalk hv⟩

theorem pageView_same {lp : Nat} (hpn : pageNodeOf st' file lp = pageNodeOf st file lp)
    (hbytes : ∀ pn, versionBytes st' R' pn = versionBytes st R pn) :
    pageView st' R' file lp = pageView st R file lp := by
  rw [pageView, pageView, hpn]
  cases pageNodeOf st file lp with
  | none => rfl
  | some pn => exact hbytes pn

theorem FileEdits.sameFiles (h : FileEdits st st') (hwf : FileWf st) (R : Int) :
    SameFiles st R st' R where
  pageSize := (h.keeps hwf).pageSize
  sizes := by
    intro file f hf
    obtain ⟨f', hf', hs⟩ := (h.keeps hwf).sizes file f hf
    refine ⟨f', hf', ?_⟩
    rw [sizechainGet, sizechainGet, hs, h.dirsKept.table]
  view := (h.keeps hwf).view R

theorem WriteEdit.sameFiles (h : WriteEdit epoch st st') (hep : EpochWf st)
    (he : Writable st epoch) (hwf : FileWf st) (hR : R ≤ st.currentEpoch) (hne : R ≠ epoch) :
    SameFiles st R st' R := by
  have hskip : applicable st.mapperTable R (u32 epoch) = false := by
    rw [hep.u32_issued he.issued]
    exact hep.not_applicable he hR hne
  cases h with
  | resolve st' h => exact FileEdits.sameFiles (.single h) hwf R
  | inPlace pn n v p hn hv hepoch =>
    refine ⟨rfl, fun _ f hf => ⟨f, hf, rfl⟩, fun file lp => pageView_same rfl fun pn' => ?_⟩
    refine versionBytes_same rfl fun v' hv' => Function.update_of_ne ?_ ..
    -- the reader sees a version of another epoch, so one with another data page
    intro heq
    obtain ⟨n', hn', hmem, happ⟩ := visibleVersion_mem hv'
    obtain ⟨-, rfl⟩ := hwf.data_inj pn' n' v' pn n v hn' hmem hn hv heq
    rw [hepoch, hskip] at happ
    cases happ
  | version pn n p hn =>
    refine ⟨rfl, fun _ f hf => ⟨f, hf, rfl⟩, fun file lp =>
      pageView_same (pageNodeOf_version hn p epoch file lp) fun pn' => ?_⟩
    refine versionBytes_same ?_ fun v' hv' => Function.update_of_ne ?_ ..
    · by_cases hpn : pn' = pn
      · simp only [visibleVersion, hpn, Function.update_self, hn, Option.bind_some]
        exact chainWalk_cons_skip hskip
      · simp only [visibleVersion, Function.update_of_ne hpn]
    · obtain ⟨n', hn', hmem, -⟩ := visibleVersion_mem hv'
      exact hwf.version_ne_nextPage hn' hmem
  | lost p =>
    refine ⟨rfl, fun _ f hf => ⟨f, hf, rfl⟩, fun file lp => pageView_same rfl fun pn' => ?_⟩
    refine versionBytes_same rfl fun v' hv' => Function.update_of_ne ?_ ..
    obtain ⟨n', hn', hmem, -⟩ := visibleVersion_mem hv'
    exact hwf.version_ne_nextPage hn' hmem
  | size file f n hf hn =>
    refine ⟨rfl, fun file' g hg => ?_, fun file' lp =>
      pageView_same (pageNodeOf_size hf n epoch file' lp) fun _ => rfl⟩
    by_cases hv : file' = file
    · subst hv
      obtain rfl : g = f := by simpa [hg] using hf
      have hwalk : chainWalk FileSize.epoch st.mapperTable R (⟨u32 epoch, n⟩ :: g.sizes) =
          chainWalk FileSize.epoch st.mapperTable R g.sizes := chainWalk_cons_skip hskip
      exact ⟨_, Function.update_self .., by simp only [sizechainGet, hwalk]⟩
    · exact ⟨g, (Function.update_of_ne hv ..).trans hg, rfl⟩
  | bin => exact ⟨rfl, fun _ f hf => ⟨f, hf, rfl⟩, fun _ _ => rfl⟩

structure WriteEdits.Keeps (st st' : State) (epoch : Int) : Prop where
  kept : DirsKept st st'
  fileWf : FileWf st'
  same : ∀ R, R ≤ st.currentEpoch → R ≠ epoch → SameFiles st R st' R
  pageSize : st'.pageSize = st.pageSize
  segmentSize : st'.segmentSize = st.segmentSize
  pages : ∀ file lp pn, pageNodeOf st file lp = some pn → pageNodeOf st' file lp = some pn

theorem Writable.kept (h : DirsKept st st') (he : Writable st epoch) : Writable st' epoch := by
  simpa only [Writable, Active, h.epoch, h.table] using he

theorem WriteEdits.keeps (h : WriteEdits epoch st st') (hep : EpochWf st) (he : Writable st epoch)
    (hwf : FileWf st) : WriteEdits.Keeps st st' epoch := by
  induction h with
  | refl => exact ⟨.refl st, hwf, fun R _ _ => .refl st R, rfl, rfl, fun _ _ _ h => h⟩
  | @tail st₁ st₂ _ hedit ih =>
    have hep₁ := ih.kept.epochWf hep
    have he₁ := he.kept ih.kept
    refine ⟨ih.kept.trans hedit.dirsKept, hedit.fileWf hep₁ he₁ ih.fileWf, fun R hR hne => ?_,
      hedit.const.1.trans ih.pageSize, hedit.const.2.trans ih.segmentSize,
      fun file lp pn h => hedit.keeps_page ih.fileWf.pagesWf (ih.pages file lp pn h)⟩
    refine (ih.same R hR hne).trans (hedit.sameFiles hep₁ he₁ ih.fileWf ?_ hne)
    rwa [ih.kept.epoch]

end SphereVFS
