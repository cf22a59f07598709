import SphereVFS.DirFrame

/-!
# SphereVFS.FileFrame

What the file operations leave alone: the directories, the slots and the epochs.
-/

namespace SphereVFS

variable {st st' st'' : State} {file : VPtr} {epoch : Int}

structure DirsKept (st st' : State) : Prop where
  dirs : ∀ v d, st'.nodes v = some (.dir d) ↔ st.nodes v = some (.dir d)
  files : ∀ v f, st.nodes v = some (.file f) → ∃ f', st'.nodes v = some (.file f')
  none : ∀ v, st'.nodes v = none ↔ st.nodes v = none
  slots : st'.slots = st.slots
  table : st'.mapperTable = st.mapperTable
  mapper : st'.mapper = st.mapper
  epoch : st'.currentEpoch = st.currentEpoch
  root : st'.root = st.root
  next : st.nextVp ≤ st'.nextVp

namespace DirsKept

theorem refl (st : State) : DirsKept st st :=
  ⟨fun _ _ => .rfl, fun _ f h => ⟨f, h⟩, fun _ => .rfl, rfl, rfl, rfl, rfl, rfl, Nat.le_refl _⟩

theorem trans (h : DirsKept st st') (h' : DirsKept st' st'') : DirsKept st st'' where
  dirs := fun v d => (h'.dirs v d).trans (h.dirs v d)
  files := fun v f hf => by
    obtain ⟨f', hf'⟩ := h.files v f hf
    exact h'.files v f' hf'
  none := fun v => (h'.none v).trans (h.none v)
  slots := h'.slots.trans h.slots
  table := h'.table.trans h.table
  mapper := h'.mapper.trans h.mapper
  epoch := h'.epoch.trans h.epoch
  root := h'.root.trans h.root
  next := Nat.le_trans h.next h'.next

theorem of_update {f f' : FileNode} (hf : st.nodes file = some (.file f))
    (hnodes : st'.nodes = Function.update st.nodes file (some (.file f')))
    (hslots : st'.slots = st.slots) (htable : st'.mapperTable = st.mapperTable)
    (hmapper : st'.mapper = st.mapper) (hepoch : st'.currentEpoch = st.currentEpoch)
    (hroot : st'.root = st.root) (hnext : st.nextVp ≤ st'.nextVp) : DirsKept st st' := by
  refine ⟨?_, ?_, ?_, hslots, htable, hmapper, hepoch, hroot, hnext⟩
  · intro v d
    by_cases hv : v = file
    · simp [hnodes, hv, hf]
    · simp [hnodes, hv]
  · intro v g hg
    by_cases hv : v = file
    · exact ⟨f', by simp [hnodes, hv]⟩
    · exact ⟨g, by simp [hnodes, hv, hg]⟩
  · intro v
    by_cases hv : v = file
    · simp [hnodes, hv, hf]
    · simp [hnodes, hv]

theorem of_nodes_eq (hnodes : st'.nodes = st.nodes)
    (hslots : st'.slots = st.slots) (htable : st'.mapperTable = st.mapperTable)
    (hmapper : st'.mapper = st.mapper) (hepoch : st'.currentEpoch = st.currentEpoch)
    (hroot : st'.root = st.root) (hnext : st.nextVp ≤ st'.nextVp) : DirsKept st st' :=
  ⟨fun v d => by rw [hnodes], fun v f h => ⟨f, by rw [hnodes, h]⟩, fun v => by rw [hnodes],
    hslots, htable, hmapper, hepoch, hroot, hnext⟩

theorem epochWf (h : DirsKept st st') (hwf : EpochWf st) : EpochWf st' := by
  constructor
  · rw [h.epoch]; exact hwf.head_even
  · rw [h.epoch]; exact hwf.head_nonneg
  · rw [h.epoch]; exact hwf.head_lt
  · rw [h.epoch, h.table]; exact hwf.rows
  · rw [h.table, h.mapper]; exact hwf.chain

theorem isSome (h : DirsKept st st') {v : VPtr} (hv : (st.nodes v).isSome) :
    (st'.nodes v).isSome := by
  rw [Option.isSome_iff_ne_none] at hv ⊢
  exact fun hn => hv ((h.none v).1 hn)

theorem dirWf (h : DirsKept st st') (hwf : DirWf st) : DirWf st' := by
  constructor
  · intro v hv
    exact (h.none v).2 (hwf.node_fresh v (Nat.le_trans h.next hv))
  · intro v hv
    rw [h.slots]
    exact hwf.slot_fresh v (Nat.le_trans h.next hv)
  · intro dir d hd
    rw [h.slots]
    exact hwf.slot_some dir d ((h.dirs dir d).1 hd)
  · intro dir d hd
    exact hwf.slot_nodup dir d ((h.dirs dir d).1 hd)
  · intro dir d dir' d' v hd hd'
    exact hwf.slot_dir dir d dir' d' v ((h.dirs dir d).1 hd) ((h.dirs dir' d').1 hd')
  · intro dir d hd
    exact hwf.index dir d ((h.dirs dir d).1 hd)
  · intro v s hs
    rw [h.slots] at hs
    rw [h.epoch]
    exact hwf.entry_epoch v s hs
  · intro v s hs dc hdc
    rw [h.slots] at hs
    exact h.isSome (hwf.entry_child v s hs dc hdc)

theorem grow (h : DirsKept st st') (hwf : DirWf st) : DirGrow st st' :=
  .of_same hwf (fun v hv => by rwa [h.slots]) (fun dir d hd => ⟨d, (h.dirs dir d).2 hd, rfl⟩)
    h.files fun dir d' hd' v hv => ⟨d', (h.dirs dir d').1 hd', hv⟩

theorem entries (h : DirsKept st st') (R : Int) : SameEntries st R st' R :=
  fun _ => visibleEntry_congr h.table (congrFun h.slots _)

end DirsKept

end SphereVFS
