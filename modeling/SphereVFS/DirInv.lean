import SphereVFS.ReadRule
import SphereVFS.Commit
import Mathlib.Logic.Relation
import Mathlib.Data.List.Nodup

/-!
# SphereVFS.DirInv

The directory side of the volume: its invariant, the primitive edits every directory operation is
made of, and what an edit at one epoch leaves alone for the readers at the others.
-/

namespace SphereVFS

/-- The head is even, and every row of the mapper comes from a commit or a soft-delete. -/
structure EpochWf (st : State) : Prop where
  head_even : st.currentEpoch % 2 = 0
  head_nonneg : 0 ≤ st.currentEpoch
  head_lt : st.currentEpoch < 2 ^ 31
  rows : ∀ r ∈ st.mapperTable, RowOk st.currentEpoch r
  chain : ∀ r, r ∈ st.mapper ↔ r ∈ st.mapperTable

/-- An issued snapshot that was neither committed nor soft-deleted. -/
def Active (st : State) (e : Int) : Prop :=
  e % 2 = 1 ∧ 0 < e ∧ e < st.currentEpoch ∧ Unmapped st.mapperTable e

/-- The epochs callers may use: the head, or an odd epoch `vfs_snapshot` has returned. -/
def Issued (st : State) (e : Int) : Prop :=
  e = st.currentEpoch ∨ e % 2 = 1 ∧ 0 < e ∧ e < st.currentEpoch

def Writable (st : State) (e : Int) : Prop := e = st.currentEpoch ∨ Active st e

theorem Writable.issued {st : State} {e : Int} (h : Writable st e) : Issued st e := by
  obtain h | ⟨h1, h2, h3, -⟩ := h
  · exact .inl h
  · exact .inr ⟨h1, h2, h3⟩

namespace EpochWf

variable {st : State} {e : Int} (h : EpochWf st)
include h

theorem u32_issued (he : Issued st e) : u32 e = e := by
  have h0 := h.head_nonneg
  have h1 := h.head_lt
  apply u32_of_range <;> rcases he with he | he <;> omega

theorem u32_range (he : Writable st e) : 0 ≤ u32 e ∧ u32 e ≤ st.currentEpoch := by
  have hnn := h.head_nonneg
  rw [h.u32_issued he.issued]
  obtain he | he := he.issued <;> omega

theorem unmapped (he : Writable st e) : Unmapped st.mapperTable e := by
  obtain rfl | he := he
  · exact unmapped_of_even h.rows h.head_even
  · exact he.2.2.2

theorem resolve_writable (he : Writable st e) : resolve st.mapperTable e = e := by
  apply resolve_unmapped
  rw [h.u32_issued he.issued]
  exact h.unmapped he

theorem writable_of_check (he : Issued st e) (hw : epochIsWritable st e = true) : Writable st e := by
  obtain rfl | ⟨hodd, hpos, hlt⟩ := he
  · exact .inl rfl
  · have h1 := h.head_lt
    have hne : ¬ e = -1 := by omega
    have hne' : ¬ e = st.currentEpoch := by omega
    have hmod : e.tmod 2 = 1 := by rw [Int.tmod_eq_emod_of_nonneg (by omega)]; exact hodd
    simp only [epochIsWritable, hne, if_false, hne', hmod, if_true, beq_iff_eq] at hw
    exact .inr ⟨hodd, hpos, hlt, (resolve_eq_self h.rows (by omega) (by omega)).1 hw⟩

theorem check_of_writable (he : Writable st e) : epochIsWritable st e = true := by
  have hres := h.resolve_writable he
  have hnn := h.head_nonneg
  obtain rfl | ⟨hodd, hpos, hlt, -⟩ := he
  · simp [epochIsWritable]
  · have hne : ¬ e = -1 := by omega
    have hne' : ¬ e = st.currentEpoch := by omega
    have hmod : e.tmod 2 = 1 := by rw [Int.tmod_eq_emod_of_nonneg (by omega)]; exact hodd
    simp only [epochIsWritable, hne, if_false, hne', hmod, if_true, beq_iff_eq]
    exact hres

theorem not_applicable (he : Writable st e) {R : Int} (hR : R ≤ st.currentEpoch) (hne : R ≠ e) :
    applicable st.mapperTable R e = false := by
  have hodd : e = st.currentEpoch ∨ e % 2 = 1 := he.imp id fun he => he.1
  refine not_applicable_of_writable ?_ hodd hR hne
  rw [h.u32_issued he.issued]
  exact h.unmapped he

theorem applicable_at (he : Writable st e) : applicable st.mapperTable e e = true := by
  apply applicable_self
  rw [h.u32_issued he.issued]
  exact h.unmapped he

end EpochWf

/-! ## The invariant -/

structure DirWf (st : State) : Prop where
  node_fresh : ∀ v, st.nextVp ≤ v → st.nodes v = none
  slot_fresh : ∀ v, st.nextVp ≤ v → st.slots v = none
  slot_some : ∀ dir d, st.nodes dir = some (.dir d) → ∀ v ∈ d.slotList, (st.slots v).isSome
  slot_nodup : ∀ dir d, st.nodes dir = some (.dir d) → d.slotList.Nodup
  slot_dir : ∀ dir d dir' d' v, st.nodes dir = some (.dir d) → st.nodes dir' = some (.dir d') →
    v ∈ d.slotList → v ∈ d'.slotList → dir = dir'
  index : ∀ dir d, st.nodes dir = some (.dir d) → ∀ leaf, ∀ l ∈ d.index leaf, l ≠ 0 → l ∈ d.slotList
  entry_epoch : ∀ v s, st.slots v = some s → ∀ dc ∈ s.chain,
    0 ≤ dc.epoch ∧ dc.epoch ≤ st.currentEpoch
  entry_child : ∀ v s, st.slots v = some s → ∀ dc ∈ s.chain, (st.nodes dc.childPtr).isSome

theorem DirWf.fresh_not_mem {st : State} (hwf : DirWf st) {dir : VPtr} {d : DirNode}
    (hd : st.nodes dir = some (.dir d)) {v : VPtr} (hv : st.nextVp ≤ v) : v ∉ d.slotList := by
  intro hmem
  have hsome := hwf.slot_some dir d hd v hmem
  simp [hwf.slot_fresh v hv] at hsome

theorem bootstrap_node {pageSize segmentSize : Nat} {v : VPtr} {node : Node}
    (h : (bootstrap pageSize segmentSize).nodes v = some node) :
    v = 1 ∧ node = .dir ⟨0, [], fun _ => []⟩ := by
  simp only [bootstrap, Function.update_apply] at h
  split at h
  · rename_i hv
    exact ⟨hv, by simpa using h.symm⟩
  · cases h

theorem bootstrap_dirWf (pageSize segmentSize : Nat) : DirWf (bootstrap pageSize segmentSize) := by
  have hroot : ∀ dir d, (bootstrap pageSize segmentSize).nodes dir = some (.dir d) →
      dir = 1 ∧ d = ⟨0, [], fun _ => []⟩ := by
    intro dir d h
    obtain ⟨hv, hd⟩ := bootstrap_node h
    cases hd
    exact ⟨hv, rfl⟩
  constructor
  · intro v hv
    have hne : v ≠ 1 := by simp only [bootstrap] at hv; lia
    simp [bootstrap, hne]
  · intro v hv; rfl
  · intro dir d h v hv
    rw [(hroot dir d h).2] at hv
    simp [DirNode.slotList] at hv
  · intro dir d h
    rw [(hroot dir d h).2]
    simp [DirNode.slotList]
  · intro dir d dir' d' v h h' hv hv'
    rw [(hroot dir d h).1, (hroot dir' d' h').1]
  · intro dir d h leaf l hl
    rw [(hroot dir d h).2] at hl
    simp at hl
  · intro v s h; simp [bootstrap] at h
  · intro v s h; simp [bootstrap] at h

theorem bootstrap_epochWf (pageSize segmentSize : Nat) :
    EpochWf (bootstrap pageSize segmentSize) := by
  constructor <;> simp [bootstrap]

theorem slotList_link (d : DirNode) (slot : VPtr) (ix : DirIndex) :
    ∃ pre post, d.slotList = pre ++ post ∧
      ({ d with segments := linkSlot d.segments slot, index := ix } : DirNode).slotList =
        pre ++ slot :: post := by
  have hsome : ∀ segs segs', prependToSegment slot segs = some segs' →
      ∃ pre post, segs.flatMap DirSegment.slots = pre ++ post ∧
        segs'.flatMap DirSegment.slots = pre ++ slot :: post := by
    intro segs
    induction segs with
    | nil => intro segs' h; simp [prependToSegment] at h
    | cons seg rest ih =>
      intro segs' h
      rw [prependToSegment] at h
      split at h
      · cases h
        exact ⟨[], _, rfl, rfl⟩
      · obtain ⟨rest', hrest, rfl⟩ := Option.map_eq_some_iff.1 h
        obtain ⟨pre, post, h1, h2⟩ := ih rest' hrest
        exact ⟨seg.slots ++ pre, post, by simp [h1], by simp [h2]⟩
  simp only [DirNode.slotList, linkSlot]
  cases h : prependToSegment slot d.segments with
  | none => exact ⟨[], _, rfl, rfl⟩
  | some segs' => exact hsome _ _ h

theorem update_some_iff {α β : Type} [DecidableEq α] {f : α → Option β} {a b : α} {x y : β} :
    Function.update f a (some x) b = some y ↔ b = a ∧ x = y ∨ b ≠ a ∧ f b = some y := by
  by_cases h : b = a
  · simp [h]
  · simp [h]

theorem update_isSome {α β : Type} [DecidableEq α] {f : α → Option β} {a b : α} {x : β}
    (h : (f b).isSome) : (Function.update f a (some x) b).isSome := by
  by_cases hb : b = a
  · simp [hb]
  · simpa [hb] using h

/-! ## Edits -/

inductive IsNew : Node → Prop
  | dir (id : Nat) : IsNew (.dir ⟨id, [], fun _ => []⟩)
  | file (id : Nat) : IsNew (.file ⟨id, [], []⟩)

/-- The primitive changes of the directory operations at an epoch. -/
inductive DirEdit (epoch : Int) (st : State) : State → Prop
  | node (node : Node) (id : Nat) (hnew : IsNew node) :
      DirEdit epoch st { st with
        nextVp := st.nextVp + 1
        nextNodeId := id
        nodes := Function.update st.nodes st.nextVp (some node) }
  | insert (dir : VPtr) (d : DirNode) (childId : Nat) (child : VPtr) (name : Name)
      (hdir : st.nodes dir = some (.dir d)) (hchild : (st.nodes child).isSome) :
      DirEdit epoch st (insertEntry st dir d childId child name epoch)
  | prepend (slot : VPtr) (s : SlotNode) (childId : Nat) (child : VPtr) (name : Option Name)
      (hslot : st.slots slot = some s) (hchild : (st.nodes child).isSome) :
      DirEdit epoch st (prependEntry st slot s childId child name epoch)
  | reindex (dir : VPtr) (d : DirNode) (ix : DirIndex) (hdir : st.nodes dir = some (.dir d))
      (hix : ∀ leaf, ∀ l ∈ ix leaf, l ≠ 0 → l ∈ d.slotList) :
      DirEdit epoch st (setIndex st dir d ix)
  | bin (entries : List BinEntry) : DirEdit epoch st { st with bin := entries }

abbrev DirEdits (epoch : Int) : State → State → Prop := Relation.ReflTransGen (DirEdit epoch)

variable {st st' : State} {epoch : Int}

structure DirEdit.Same (st st' : State) : Prop where
  epoch : st'.currentEpoch = st.currentEpoch
  table : st'.mapperTable = st.mapperTable
  mapper : st'.mapper = st.mapper
  root : st'.root = st.root
  next : st.nextVp ≤ st'.nextVp

theorem DirEdit.same (h : DirEdit epoch st st') : DirEdit.Same st st' := by
  cases h <;> constructor <;> first | rfl | (simp [insertEntry, prependEntry])

theorem DirEdit.epochWf (h : DirEdit epoch st st') (hwf : EpochWf st) : EpochWf st' := by
  have hs := h.same
  constructor
  · rw [hs.epoch]; exact hwf.head_even
  · rw [hs.epoch]; exact hwf.head_nonneg
  · rw [hs.epoch]; exact hwf.head_lt
  · rw [hs.epoch, hs.table]; exact hwf.rows
  · rw [hs.table, hs.mapper]; exact hwf.chain

theorem DirWf.addNode (hwf : DirWf st) {node : Node} (id : Nat) (hnew : IsNew node) :
    DirWf { st with
      nextVp := st.nextVp + 1
      nextNodeId := id
      nodes := Function.update st.nodes st.nextVp (some node) } := by
  -- a directory of the new state is an old one, or the new node and then empty
  have hdirs : ∀ dir d, Function.update st.nodes st.nextVp (some node) dir = some (.dir d) →
      st.nodes dir = some (.dir d) ∨ d.slotList = [] ∧ ∀ leaf, d.index leaf = [] := by
    intro dir d h
    obtain ⟨-, rfl⟩ | ⟨-, h⟩ := update_some_iff.1 h
    · cases hnew
      exact .inr ⟨rfl, fun _ => rfl⟩
    · exact .inl h
  constructor
  · intro v hv
    dsimp only at hv ⊢
    rw [Function.update_of_ne (by lia : v ≠ st.nextVp)]
    exact hwf.node_fresh v (by lia)
  · intro v hv
    dsimp only at hv
    exact hwf.slot_fresh v (by lia)
  · intro dir d h v hv
    obtain h | ⟨h, -⟩ := hdirs dir d h
    · exact hwf.slot_some dir d h v hv
    · simp [h] at hv
  · intro dir d h
    obtain h | ⟨h, -⟩ := hdirs dir d h
    · exact hwf.slot_nodup dir d h
    · simp [h]
  · intro dir d dir' d' v h h' hv hv'
    obtain h | ⟨h, -⟩ := hdirs dir d h
    · obtain h' | ⟨h', -⟩ := hdirs dir' d' h'
      · exact hwf.slot_dir dir d dir' d' v h h' hv hv'
      · simp [h'] at hv'
    · simp [h] at hv
  · intro dir d h leaf l hl
    obtain h | ⟨-, h⟩ := hdirs dir d h
    · exact hwf.index dir d h leaf l hl
    · simp [h leaf] at hl
  · exact hwf.entry_epoch
  · intro v s hs dc hdc
    exact update_isSome (hwf.entry_child v s hs dc hdc)

theorem DirWf.prependEntry (hwf : DirWf st) {slot : VPtr} {s : SlotNode} (childId : Nat)
    {child : VPtr} (name : Option Name) (hslot : st.slots slot = some s)
    (hchild : (st.nodes child).isSome) (h0 : 0 ≤ u32 epoch) (hle : u32 epoch ≤ st.currentEpoch) :
    DirWf (prependEntry st slot s childId child name epoch) := by
  have hlt : slot < st.nextVp := by
    by_contra hge
    simp [hwf.slot_fresh slot (by lia)] at hslot
  constructor
  · intro v hv
    exact hwf.node_fresh v (by simp only [SphereVFS.prependEntry] at hv; lia)
  · intro v hv
    simp only [SphereVFS.prependEntry] at hv ⊢
    rw [Function.update_of_ne (by lia : v ≠ slot)]
    exact hwf.slot_fresh v (by lia)
  · intro dir d h v hv
    exact update_isSome (hwf.slot_some dir d h v hv)
  · exact hwf.slot_nodup
  · exact hwf.slot_dir
  · exact hwf.index
  · intro v s' hs dc hdc
    obtain ⟨-, rfl⟩ | ⟨-, hs⟩ := update_some_iff.1 hs
    · obtain rfl | hdc := List.mem_cons.1 hdc
      · exact ⟨h0, hle⟩
      · exact hwf.entry_epoch slot s hslot dc hdc
    · exact hwf.entry_epoch v s' hs dc hdc
  · intro v s' hs dc hdc
    obtain ⟨-, rfl⟩ | ⟨-, hs⟩ := update_some_iff.1 hs
    · obtain rfl | hdc := List.mem_cons.1 hdc
      · exact hchild
      · exact hwf.entry_child slot s hslot dc hdc
    · exact hwf.entry_child v s' hs dc hdc

theorem insertEntry_slot_ne (st : State) {v : VPtr} (hv : v ≠ st.nextVp + 1) (dir : VPtr)
    (d : DirNode) (childId : Nat) (child : VPtr) (name : Name) (epoch : Int) :
    (insertEntry st dir d childId child name epoch).slots v = st.slots v :=
  Function.update_of_ne hv ..

section Insert

variable {dir : VPtr} {d : DirNode} {childId : Nat} {child : VPtr} {name : Name}

theorem insertEntry_dirs (hdir : st.nodes dir = some (.dir d)) {dir' : VPtr} {d' : DirNode}
    (h : (insertEntry st dir d childId child name epoch).nodes dir' = some (.dir d')) :
    ∃ d₀, st.nodes dir' = some (.dir d₀) ∧
      (d' = d₀ ∨ dir' = dir ∧ d₀ = d ∧ d' = { d with
        segments := linkSlot d.segments (st.nextVp + 1)
        index := indexInsert d.index name (st.nextVp + 1) }) := by
  obtain ⟨rfl, hd⟩ | ⟨-, h⟩ := update_some_iff.1 h
  · cases hd
    exact ⟨d, hdir, .inr ⟨rfl, rfl, rfl⟩⟩
  · exact ⟨d', h, .inl rfl⟩

theorem insertEntry_mem (hdir : st.nodes dir = some (.dir d)) {dir' : VPtr} {d' : DirNode}
    (h : (insertEntry st dir d childId child name epoch).nodes dir' = some (.dir d')) {v : VPtr}
    (hv : v ∈ d'.slotList) :
    v = st.nextVp + 1 ∧ dir' = dir ∨ ∃ d₀, st.nodes dir' = some (.dir d₀) ∧ v ∈ d₀.slotList := by
  obtain ⟨d₀, h₀, rfl | ⟨hd, rfl, rfl⟩⟩ := insertEntry_dirs hdir h
  · exact .inr ⟨d', h₀, hv⟩
  · obtain ⟨pre, post, hold, hnew⟩ :=
      slotList_link d₀ (st.nextVp + 1) (indexInsert d₀.index name (st.nextVp + 1))
    rw [hnew] at hv
    obtain hv | hv | hv : v ∈ pre ∨ v = st.nextVp + 1 ∨ v ∈ post := by simpa using hv
    · exact .inr ⟨d₀, h₀, by simp [hold, hv]⟩
    · exact .inl ⟨hv, hd⟩
    · exact .inr ⟨d₀, h₀, by simp [hold, hv]⟩

theorem DirWf.insertEntry (hwf : DirWf st) (hdir : st.nodes dir = some (.dir d))
    (hchild : (st.nodes child).isSome) (h0 : 0 ≤ u32 epoch) (hle : u32 epoch ≤ st.currentEpoch) :
    DirWf (insertEntry st dir d childId child name epoch) := by
  have hfresh : ∀ dir' d', st.nodes dir' = some (.dir d') → st.nextVp + 1 ∉ d'.slotList :=
    fun dir' d' h => hwf.fresh_not_mem h (by lia)
  obtain ⟨pre, post, hold, hnew⟩ :=
    slotList_link d (st.nextVp + 1) (indexInsert d.index name (st.nextVp + 1))
  constructor
  · intro v hv
    dsimp only [SphereVFS.insertEntry] at hv ⊢
    have hne : v ≠ dir := by
      rintro rfl
      simp [hwf.node_fresh v (by lia)] at hdir
    rw [Function.update_of_ne hne]
    exact hwf.node_fresh v (by lia)
  · intro v hv
    dsimp only [SphereVFS.insertEntry] at hv
    rw [insertEntry_slot_ne st (by lia)]
    exact hwf.slot_fresh v (by lia)
  · intro dir' d' h v hv
    obtain ⟨rfl, -⟩ | ⟨d₀, h₀, hv⟩ := insertEntry_mem hdir h hv
    · simp [SphereVFS.insertEntry]
    · exact update_isSome (hwf.slot_some dir' d₀ h₀ v hv)
  · intro dir' d' h
    obtain ⟨d₀, h₀, rfl | ⟨-, rfl, rfl⟩⟩ := insertEntry_dirs hdir h
    · exact hwf.slot_nodup dir' d' h₀
    · have hn := hwf.slot_nodup dir' d₀ h₀
      have hf := hfresh dir' d₀ h₀
      rw [hold] at hn hf
      rw [hnew, List.nodup_middle]
      exact List.nodup_cons.2 ⟨hf, hn⟩
  · intro dir₁ d₁ dir₂ d₂ v h₁ h₂ hv₁ hv₂
    obtain ⟨rfl, hd₁⟩ | ⟨e₁, g₁, hv₁⟩ := insertEntry_mem hdir h₁ hv₁
    · obtain ⟨-, hd₂⟩ | ⟨e₂, g₂, hv₂⟩ := insertEntry_mem hdir h₂ hv₂
      · rw [hd₁, hd₂]
      · exact absurd hv₂ (hfresh dir₂ e₂ g₂)
    · obtain ⟨rfl, -⟩ | ⟨e₂, g₂, hv₂⟩ := insertEntry_mem hdir h₂ hv₂
      · exact absurd hv₁ (hfresh dir₁ e₁ g₁)
      · exact hwf.slot_dir dir₁ e₁ dir₂ e₂ v g₁ g₂ hv₁ hv₂
  · intro dir' d' h leaf l hl hne
    obtain ⟨d₀, h₀, rfl | ⟨-, rfl, rfl⟩⟩ := insertEntry_dirs hdir h
    · exact hwf.index dir' d' h₀ leaf l hl hne
    · rw [hnew]
      -- a link of the index is an old one, or the one to the new slot
      have hl : l = st.nextVp + 1 ∨ l ∈ d₀.index leaf := by
        simp only [indexInsert, Function.update_apply] at hl
        split at hl
        · rename_i hleaf
          rw [hleaf]
          exact List.mem_cons.1 hl
        · exact .inr hl
      obtain rfl | hl := hl
      · simp
      · have hin := hwf.index dir' d₀ h₀ leaf l hl hne
        rw [hold, List.mem_append] at hin
        simp only [List.mem_append, List.mem_cons]
        exact hin.imp id .inr
  · intro v s hs dc hdc
    obtain ⟨-, rfl⟩ | ⟨-, hs⟩ := update_some_iff.1 hs
    · obtain rfl := List.mem_singleton.1 hdc
      exact ⟨h0, hle⟩
    · exact hwf.entry_epoch v s hs dc hdc
  · intro v s hs dc hdc
    obtain ⟨-, rfl⟩ | ⟨-, hs⟩ := update_some_iff.1 hs
    · obtain rfl := List.mem_singleton.1 hdc
      exact update_isSome hchild
    · exact update_isSome (hwf.entry_child v s hs dc hdc)

end Insert

theorem DirWf.setIndex (hwf : DirWf st) {dir : VPtr} {d : DirNode} {ix : DirIndex}
    (hdir : st.nodes dir = some (.dir d)) (hix : ∀ leaf, ∀ l ∈ ix leaf, l ≠ 0 → l ∈ d.slotList) :
    DirWf (setIndex st dir d ix) := by
  -- every directory keeps its slots
  have hdirs : ∀ dir' d', (SphereVFS.setIndex st dir d ix).nodes dir' = some (.dir d') →
      ∃ d₀, st.nodes dir' = some (.dir d₀) ∧ d'.slotList = d₀.slotList := by
    intro dir' d' h
    obtain ⟨rfl, hd⟩ | ⟨-, h⟩ := update_some_iff.1 h
    · cases hd
      exact ⟨d, hdir, rfl⟩
    · exact ⟨d', h, rfl⟩
  constructor
  · intro v hv
    have hne : v ≠ dir := by
      rintro rfl
      simp [hwf.node_fresh v hv] at hdir
    simp only [SphereVFS.setIndex, Function.update_of_ne hne]
    exact hwf.node_fresh v hv
  · exact hwf.slot_fresh
  · intro dir' d' h v hv
    obtain ⟨d₀, h₀, heq⟩ := hdirs dir' d' h
    exact hwf.slot_some dir' d₀ h₀ v (heq ▸ hv)
  · intro dir' d' h
    obtain ⟨d₀, h₀, heq⟩ := hdirs dir' d' h
    rw [heq]
    exact hwf.slot_nodup dir' d₀ h₀
  · intro dir₁ d₁ dir₂ d₂ v h₁ h₂ hv₁ hv₂
    obtain ⟨e₁, h₁, heq₁⟩ := hdirs dir₁ d₁ h₁
    obtain ⟨e₂, h₂, heq₂⟩ := hdirs dir₂ d₂ h₂
    exact hwf.slot_dir dir₁ e₁ dir₂ e₂ v h₁ h₂ (heq₁ ▸ hv₁) (heq₂ ▸ hv₂)
  · intro dir' d' h leaf l hl hne
    obtain ⟨-, hd⟩ | ⟨-, h⟩ := update_some_iff.1 h
    · cases hd
      exact hix leaf l hl hne
    · exact hwf.index dir' d' h leaf l hl hne
  · exact hwf.entry_epoch
  · intro v s hs dc hdc
    exact update_isSome (hwf.entry_child v s hs dc hdc)

theorem DirEdit.dirWf (h : DirEdit epoch st st') (hep : EpochWf st) (he : Writable st epoch)
    (hwf : DirWf st) : DirWf st' := by
  obtain ⟨h0, hle⟩ := hep.u32_range he
  cases h with
  | node node id hnew => exact hwf.addNode id hnew
  | insert dir d childId child name hdir hchild =>
    exact hwf.insertEntry hdir hchild h0 hle
  | prepend slot s childId child name hslot hchild =>
    exact hwf.prependEntry childId name hslot hchild h0 hle
  | reindex dir d ix hdir hix => exact hwf.setIndex hdir hix
  | bin entries => exact ⟨hwf.1, hwf.2, hwf.3, hwf.4, hwf.5, hwf.6, hwf.7, hwf.8⟩

end SphereVFS
