import SphereVFS.DirInv

/-!
# SphereVFS.DirFrame

What readers at other epochs see of a directory operation: nothing.

`DirGrow` is how the directories of a volume evolve: slots are only added, and the old slots of a
directory keep their order. `SameEntries` says that the slots show the same at two epochs of two
states. Together they give the same listings.
-/

namespace SphereVFS

variable {st st' st'' : State} {epoch R R' R'' : Int}

structure DirGrow (st st' : State) : Prop where
  slots : ∀ v, (st.slots v).isSome → (st'.slots v).isSome
  dirs : ∀ dir d, st.nodes dir = some (.dir d) → ∃ d', st'.nodes dir = some (.dir d') ∧
    d'.slotList.filter (fun v => (st.slots v).isSome) = d.slotList
  files : ∀ v f, st.nodes v = some (.file f) → ∃ f', st'.nodes v = some (.file f')
  old : ∀ dir d', st'.nodes dir = some (.dir d') → ∀ v ∈ d'.slotList, (st.slots v).isSome →
    ∃ d, st.nodes dir = some (.dir d) ∧ v ∈ d.slotList

/-- Every slot shows at `R'` of `st'` what it shows at `R` of `st`. -/
def SameEntries (st : State) (R : Int) (st' : State) (R' : Int) : Prop :=
  ∀ v, visibleEntry st' R' v = visibleEntry st R v

theorem SameEntries.trans (h : SameEntries st R st' R') (h' : SameEntries st' R' st'' R'') :
    SameEntries st R st'' R'' := fun v => (h' v).trans (h v)

theorem visibleEntry_none {v : VPtr} (h : st.slots v = none) : visibleEntry st R v = none := by
  simp [visibleEntry, h]

theorem visibleEntry_congr {v : VPtr} (htable : st'.mapperTable = st.mapperTable)
    (hslot : st'.slots v = st.slots v) : visibleEntry st' R v = visibleEntry st R v := by
  simp only [visibleEntry, htable, hslot]

namespace DirGrow

theorem of_same (hwf : DirWf st) (hslots : ∀ v, (st.slots v).isSome → (st'.slots v).isSome)
    (hdirs : ∀ dir d, st.nodes dir = some (.dir d) →
      ∃ d', st'.nodes dir = some (.dir d') ∧ d'.slotList = d.slotList)
    (hfiles : ∀ v f, st.nodes v = some (.file f) → ∃ f', st'.nodes v = some (.file f'))
    (hold : ∀ dir d', st'.nodes dir = some (.dir d') → ∀ v ∈ d'.slotList,
      ∃ d, st.nodes dir = some (.dir d) ∧ v ∈ d.slotList) : DirGrow st st' where
  slots := hslots
  dirs := by
    intro dir d h
    obtain ⟨d', h', heq⟩ := hdirs dir d h
    refine ⟨d', h', ?_⟩
    rw [heq, List.filter_eq_self]
    exact hwf.slot_some dir d h
  files := hfiles
  old := fun dir d' h v hv _ => hold dir d' h v hv

theorem refl (hwf : DirWf st) : DirGrow st st :=
  of_same hwf (fun _ h => h) (fun _ d h => ⟨d, h, rfl⟩) (fun _ f h => ⟨f, h⟩)
    fun _ d' h _ hv => ⟨d', h, hv⟩

theorem trans (h : DirGrow st st') (h' : DirGrow st' st'') : DirGrow st st'' where
  slots := fun v hv => h'.slots v (h.slots v hv)
  dirs := by
    intro dir d hd
    obtain ⟨d', hd', heq⟩ := h.dirs dir d hd
    obtain ⟨d'', hd'', heq'⟩ := h'.dirs dir d' hd'
    refine ⟨d'', hd'', ?_⟩
    rw [← heq, ← heq', List.filter_filter]
    apply List.filter_congr
    intro v _
    cases hv : (st.slots v).isSome with
    | false => rfl
    | true => simp [h.slots v hv]
  files := by
    intro v f hf
    obtain ⟨f', hf'⟩ := h.files v f hf
    exact h'.files v f' hf'
  old := by
    intro dir d'' hd'' v hv hs
    obtain ⟨d', hd', hv'⟩ := h'.old dir d'' hd'' v hv (h.slots v hs)
    exact h.old dir d' hd' v hv' hs

theorem isDir (h : DirGrow st st') {v : VPtr} (hv : (st.nodes v).isSome) :
    isDir st' v = isDir st v := by
  match hn : st.nodes v with
  | none => simp [hn] at hv
  | some (.dir d) =>
    obtain ⟨d', hd', -⟩ := h.dirs v d hn
    simp [SphereVFS.isDir, hn, hd']
  | some (.file f) =>
    obtain ⟨f', hf'⟩ := h.files v f hn
    simp [SphereVFS.isDir, hn, hf']

end DirGrow

/-! ## Edits -/

theorem DirEdit.grow (h : DirEdit epoch st st') (hwf : DirWf st) : DirGrow st st' := by
  cases h with
  | node node id hnew =>
    have hne : ∀ v, (st.nodes v).isSome → v ≠ st.nextVp := by
      rintro v hv rfl
      simp [hwf.node_fresh st.nextVp (by lia)] at hv
    refine .of_same hwf (fun _ h => h) ?_ ?_ ?_
    · intro dir d hd
      exact ⟨d, (Function.update_of_ne (hne dir (by simp [hd])) ..).trans hd, rfl⟩
    · intro v f hf
      exact ⟨f, (Function.update_of_ne (hne v (by simp [hf])) ..).trans hf⟩
    · intro dir d' hd' v hv
      obtain ⟨-, rfl⟩ | ⟨-, hd'⟩ := update_some_iff.1 hd'
      · cases hnew
        simp [DirNode.slotList] at hv
      · exact ⟨d', hd', hv⟩
  | insert dir d childId child name hdir hchild =>
    obtain ⟨pre, post, hold, hnew⟩ :=
      slotList_link d (st.nextVp + 1) (indexInsert d.index name (st.nextVp + 1))
    have hfresh : st.slots (st.nextVp + 1) = none := hwf.slot_fresh _ (by lia)
    constructor
    · intro v hv
      exact update_isSome hv
    · intro dir' d' hd'
      by_cases hne : dir' = dir
      · subst hne
        rw [hdir] at hd'
        cases hd'
        refine ⟨_, Function.update_self .., ?_⟩
        have hall : (pre ++ post).filter (fun v => (st.slots v).isSome) = pre ++ post := by
          rw [← hold, List.filter_eq_self]
          exact hwf.slot_some dir' d hdir
        rw [hnew, List.filter_append, List.filter_cons_of_neg (by simp [hfresh]),
          ← List.filter_append, hall, hold]
      · refine ⟨d', (Function.update_of_ne hne ..).trans hd', ?_⟩
        rw [List.filter_eq_self]
        exact hwf.slot_some dir' d' hd'
    · intro v f hf
      have hne : v ≠ dir := by rintro rfl; simp [hdir] at hf
      exact ⟨f, (Function.update_of_ne hne ..).trans hf⟩
    · intro dir' d' hd' v hv hs
      obtain ⟨rfl, hd⟩ | ⟨-, hd'⟩ := update_some_iff.1 hd'
      · cases hd
        refine ⟨d, hdir, ?_⟩
        rw [hnew] at hv
        have hne : v ≠ st.nextVp + 1 := by rintro rfl; simp [hfresh] at hs
        rw [hold, List.mem_append]
        simpa [hne] using hv
      · exact ⟨d', hd', hv⟩
  | prepend slot s childId child name hslot hchild =>
    exact .of_same hwf (fun v hv => update_isSome hv) (fun _ d h => ⟨d, h, rfl⟩)
      (fun _ f h => ⟨f, h⟩) fun _ d' h _ hv => ⟨d', h, hv⟩
  | reindex dir d ix hdir hix =>
    refine .of_same hwf (fun v hv => hv) ?_ ?_ ?_
    · intro dir' d' hd'
      by_cases hne : dir' = dir
      · subst hne
        rw [hdir] at hd'
        cases hd'
        exact ⟨_, Function.update_self .., rfl⟩
      · exact ⟨d', (Function.update_of_ne hne ..).trans hd', rfl⟩
    · intro v f hf
      have hne : v ≠ dir := by rintro rfl; simp [hdir] at hf
      exact ⟨f, (Function.update_of_ne hne ..).trans hf⟩
    · intro dir' d' hd' v hv
      obtain ⟨rfl, hd⟩ | ⟨-, hd'⟩ := update_some_iff.1 hd'
      · cases hd
        exact ⟨d, hdir, hv⟩
      · exact ⟨d', hd', hv⟩
  | bin entries =>
    exact .of_same hwf (fun _ h => h) (fun _ d h => ⟨d, h, rfl⟩) (fun _ f h => ⟨f, h⟩)
      fun _ d' h _ hv => ⟨d', h, hv⟩

theorem DirEdit.sameEntries (h : DirEdit epoch st st') (hep : EpochWf st) (he : Writable st epoch)
    (hwf : DirWf st) (hR : R ≤ st.currentEpoch) (hne : R ≠ epoch) : SameEntries st R st' R := by
  have hskip : applicable st.mapperTable R (u32 epoch) = false := by
    rw [hep.u32_issued he.issued]
    exact hep.not_applicable he hR hne
  intro v
  cases h with
  | insert dir d childId child name hdir hchild =>
    by_cases hv : v = st.nextVp + 1
    · -- the new slot shows nothing to the reader
      rw [visibleEntry_none (hwf.slot_fresh v (by lia))]
      simp [visibleEntry, insertEntry, hv, chainWalk, hskip]
    · exact visibleEntry_congr rfl (insertEntry_slot_ne st hv ..)
  | prepend slot s childId child name hslot hchild =>
    by_cases hv : v = slot
    · subst hv
      simp only [visibleEntry, prependEntry, Function.update_self, hslot]
      exact chainWalk_cons_skip hskip
    · exact visibleEntry_congr rfl (Function.update_of_ne hv ..)
  | node => exact visibleEntry_congr rfl rfl
  | reindex => exact visibleEntry_congr rfl rfl
  | bin => exact visibleEntry_congr rfl rfl

/-! ## Sequences of edits -/

structure DirEdits.Keeps (st st' : State) (epoch : Int) : Prop where
  epochWf : EpochWf st'
  dirWf : DirWf st'
  same : DirEdit.Same st st'
  grow : DirGrow st st'
  entries : ∀ R, R ≤ st.currentEpoch → R ≠ epoch → SameEntries st R st' R

theorem DirEdits.keeps (h : DirEdits epoch st st') (hep : EpochWf st) (he : Writable st epoch)
    (hwf : DirWf st) : DirEdits.Keeps st st' epoch := by
  induction h with
  | refl => exact ⟨hep, hwf, ⟨rfl, rfl, rfl, rfl, Nat.le_refl _⟩, .refl hwf, fun _ _ _ _ => rfl⟩
  | @tail st₁ st₂ _ hedit ih =>
    obtain ⟨hep₁, hwf₁, hsame, hgrow, hent⟩ := ih
    have he₁ : Writable st₁ epoch := by
      simpa only [Writable, Active, hsame.epoch, hsame.table] using he
    have hsame₁ := hedit.same
    refine ⟨hedit.epochWf hep₁, hedit.dirWf hep₁ he₁ hwf₁, ⟨?_, ?_, ?_, ?_, ?_⟩,
      hgrow.trans (hedit.grow hwf₁), ?_⟩
    · rw [hsame₁.epoch, hsame.epoch]
    · rw [hsame₁.table, hsame.table]
    · rw [hsame₁.mapper, hsame.mapper]
    · rw [hsame₁.root, hsame.root]
    · exact Nat.le_trans hsame.next hsame₁.next
    · intro R hR hne
      exact (hent R hR hne).trans (hedit.sameEntries hep₁ he₁ hwf₁ (by rwa [hsame.epoch]) hne)

end SphereVFS
