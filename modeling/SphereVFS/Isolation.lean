import SphereVFS.Volume

/-!
# SphereVFS.Isolation

Snapshot isolation. Listings, sizes and bytes at a snapshot and at the head it froze never change
while nobody works at the snapshot's epoch. A lookup by name takes the first match of the index and
so may change its answer when one name stands for two children; where names were unambiguous when
the snapshot was taken, it does not.
-/

namespace SphereVFS

variable {st st' : State} {R R' e e' : Int} {v : VPtr}

/-! ## Readers depend on the view -/

theorem lists_iff_frame (h : Frame st R st' R') {dir slot child : VPtr} {name : Name} :
    Lists st' R' dir slot name child ↔ Lists st R dir slot name child := by
  constructor
  · exact lists_of_frame h.grow h.entries
  · rintro ⟨d, dc, hd, hmem, hdc, hname, hchild⟩
    obtain ⟨d', hd', hfilter⟩ := h.grow.dirs dir d hd
    rw [← hfilter] at hmem
    exact ⟨d', dc, hd', (List.mem_filter.1 hmem).1, by rw [h.entries slot, hdc], hname, hchild⟩

theorem listSlot_frame (hwf : DirWf st) (h : Frame st R st' R') (slot : VPtr) :
    listSlot st' R' slot = listSlot st R slot := by
  rw [listSlot, listSlot, h.entries slot]
  cases hdc : visibleEntry st R slot with
  | none => rfl
  | some dc =>
    have hchild : (st.nodes dc.childPtr).isSome := by
      cases hs : st.slots slot with
      | none => simp [visibleEntry, hs] at hdc
      | some s =>
        simp only [visibleEntry, hs] at hdc
        exact hwf.entry_child slot s hs dc (mem_of_chainWalk hdc)
    simp only [h.grow.isDir hchild]

theorem listing_frame (hwf : DirWf st) (h : Frame st R st' R') {d d' : DirNode}
    (hfilter : d'.slotList.filter (fun v => (st.slots v).isSome) = d.slotList) :
    d'.slotList.filterMap (listSlot st' R') = d.slotList.filterMap (listSlot st R) := by
  rw [← hfilter, List.filterMap_filter]
  apply List.filterMap_congr
  intro slot _
  rw [listSlot_frame hwf h]
  split
  · rfl
  · rename_i hnone
    -- a slot the old state does not know shows nothing
    have hs : st.slots slot = none := by simpa using hnone
    simp [listSlot, visibleEntry_none hs]

theorem vfsReaddir_frame (hwf : DirWf st) (h : Frame st R st' R') (hv : (st.nodes v).isSome)
    (he : resolve st.mapperTable e = R) (he' : resolve st'.mapperTable e' = R') :
    vfsReaddir st' v e' = vfsReaddir st v e := by
  match hn : st.nodes v with
  | none => simp [hn] at hv
  | some (.dir d) =>
    obtain ⟨d', hd', hfilter⟩ := h.grow.dirs v d hn
    simp only [vfsReaddir, hn, hd', he, he']
    rw [listing_frame hwf h hfilter]
  | some (.file f) =>
    obtain ⟨f', hf'⟩ := h.grow.files v f hn
    simp only [vfsReaddir, hn, hf']

theorem vfsFileSize_frame (h : Frame st R st' R') (hv : (st.nodes v).isSome)
    (he : resolve st.mapperTable e = R) (he' : resolve st'.mapperTable e' = R') :
    vfsFileSize st' v e' = vfsFileSize st v e := by
  match hn : st.nodes v with
  | none => simp [hn] at hv
  | some (.dir d) =>
    obtain ⟨d', hd', -⟩ := h.grow.dirs v d hn
    simp only [vfsFileSize, hn, hd']
  | some (.file f) =>
    obtain ⟨f', hf', hsize⟩ := h.files.sizes v f hn
    simp only [vfsFileSize, hn, hf', he, he', hsize]

theorem vfsRead_frame (hwf : FileWf st) (hwf' : FileWf st') (h : Frame st R st' R')
    (hv : (st.nodes v).isSome) (he : resolve st.mapperTable e = R)
    (he' : resolve st'.mapperTable e' = R') (offset count : Int) :
    (vfsRead st' v offset count e').1 = (vfsRead st v offset count e).1 := by
  by_cases hargs : count ≤ 0 ∨ offset < 0
  · simp only [vfsRead, if_pos hargs]
  · obtain ⟨o, rfl⟩ := Int.eq_ofNat_of_zero_le (by omega : 0 ≤ offset)
    obtain ⟨c, rfl⟩ := Int.eq_ofNat_of_zero_le (by omega : 0 ≤ count)
    rw [(vfsRead_spec hwf v (by omega) e).2, (vfsRead_spec hwf' v (by omega) e').2,
      vfsFileSize_frame h hv he he', he, he']
    simp only [fileByte, h.files.pageSize, h.files.view]

/-! ## Lookup by name -/

theorem vfsOpen_cases (hwf : DirWf st) {d : DirNode} (hd : st.nodes v = some (.dir d)) {name : Name}
    (hne : name ≠ []) (e : Int) :
    (∃ child slot, vfsOpen st v name e = .ok child ∧
      Lists st (resolve st.mapperTable e) v slot name child) ∨
    vfsOpen st v name e = .error .notFound ∧
      ∀ slot child, ¬ Lists st (resolve st.mapperTable e) v slot name child := by
  cases hfind : dirchainFindChild st v name e with
  | ok r =>
    obtain ⟨child, id⟩ := r
    obtain ⟨d₀, slot, dc, hd₀, hmem, hdc, hname, hchild, -⟩ := findChild_ok hwf hfind
    exact .inl ⟨child, slot, by simp [vfsOpen, hfind, Except.map], d₀, dc, hd₀, hmem, hdc, hname,
      hchild⟩
  | error err =>
    have hnone := findChild_error hd hfind hne
    have herr : err = .notFound := by
      rw [dirchainFindChild, if_neg hne, hd] at hfind
      dsimp only at hfind
      split at hfind
      · cases hfind
      · cases hfind
        rfl
    refine .inr ⟨by simp [vfsOpen, hfind, herr, Except.map], ?_⟩
    rintro slot child ⟨d₀, dc, hd₀, hmem, hdc, hname, -⟩
    obtain rfl : d = d₀ := by simpa [hd] using hd₀
    exact hnone slot hmem dc hdc hname

def NoTwins (st : State) (R : Int) : Prop :=
  ∀ dir slot slot' name child child', Lists st R dir slot name child →
    Lists st R dir slot' name child' → child = child'

theorem vfsOpen_frame_of_eq (hwf : DirWf st) (hwf' : DirWf st') (h : Frame st R st' R') {name : Name}
    (htwins : ∀ slot slot' child child', Lists st R v slot name child →
      Lists st R v slot' name child' → child = child')
    (hv : (st.nodes v).isSome) (he : resolve st.mapperTable e = R)
    (he' : resolve st'.mapperTable e' = R') : vfsOpen st' v name e' = vfsOpen st v name e := by
  by_cases hne : name = []
  · simp [vfsOpen, dirchainFindChild, hne]
  rcases hn : st.nodes v with _ | d | f
  · simp [hn] at hv
  · obtain ⟨d', hd', -⟩ := h.grow.dirs v d hn
    have hiff : ∀ slot child, Lists st' R' v slot name child ↔ Lists st R v slot name child :=
      fun slot child => lists_iff_frame h
    have hcases := vfsOpen_cases hwf hn hne e
    have hcases' := vfsOpen_cases hwf' hd' hne e'
    rw [he] at hcases
    rw [he'] at hcases'
    obtain ⟨child, slot, hopen, hl⟩ | ⟨hopen, hno⟩ := hcases
    · obtain ⟨child', slot', hopen', hl'⟩ | ⟨-, hno'⟩ := hcases'
      · rw [hiff] at hl'
        rw [hopen, hopen', htwins slot' slot child' child hl' hl]
      · exact absurd ((hiff slot child).2 hl) (hno' slot child)
    · obtain ⟨child', slot', -, hl'⟩ | ⟨hopen', -⟩ := hcases'
      · exact absurd ((hiff slot' child').1 hl') (hno slot' child')
      · rw [hopen, hopen']
  · obtain ⟨f', hf'⟩ := h.grow.files v f hn
    simp [vfsOpen, dirchainFindChild, hne, hn, hf']

theorem vfsOpen_frame (hwf : DirWf st) (hwf' : DirWf st') (h : Frame st R st' R')
    (htwins : NoTwins st R) (hv : (st.nodes v).isSome) (he : resolve st.mapperTable e = R)
    (he' : resolve st'.mapperTable e' = R') (name : Name) :
    vfsOpen st' v name e' = vfsOpen st v name e :=
  vfsOpen_frame_of_eq hwf hwf' h (fun slot slot' child child' => htwins v slot slot' name child child')
    hv he he'

/-! ## Runs after a snapshot -/

/-- Everything a reader at `R'` of `st'` can ask about the nodes of `st` is answered as at `R` of
`st`. -/
def SameReads (st : State) (R : Int) (st' : State) (R' : Int) : Prop :=
  ∀ v, (st.nodes v).isSome →
    (∀ name, vfsOpen st' v name R' = vfsOpen st v name R) ∧
    vfsReaddir st' v R' = vfsReaddir st v R ∧ vfsFileSize st' v R' = vfsFileSize st v R ∧
    ∀ offset count, (vfsRead st' v offset count R').1 = (vfsRead st v offset count R).1

theorem sameReads_of_frame (hwf : Wf st) (hwf' : Wf st') (h : Frame st R st' R')
    (htwins : NoTwins st R) (hR : resolve st.mapperTable R = R)
    (hR' : resolve st'.mapperTable R' = R') : SameReads st R st' R' := by
  intro v hv
  exact ⟨vfsOpen_frame hwf.dir hwf'.dir h htwins hv hR hR', vfsReaddir_frame hwf.dir h hv hR hR',
    vfsFileSize_frame h hv hR hR', vfsRead_frame hwf.file hwf'.file h hv hR hR'⟩

/-- What the steps after a snapshot preserve, for a reader at a fixed epoch `R`. -/
structure Frozen (st₀ : State) (R₀ R : Int) (st : State) : Prop where
  wf : Wf st
  below : R < st.currentEpoch
  unmapped : Unmapped st.mapperTable R
  frame : Frame st₀ R₀ st R

theorem frozen_step {st₀ : State} {R₀ : Int} {op : Op} (h : Frozen st₀ R₀ R st)
    (hop : ValidOp st op) (hne : op.epoch ≠ some R) : Frozen st₀ R₀ R (step st op) := by
  have hout := step_outcome h.wf hop
  obtain ⟨hhead, hun⟩ := hout.epochs h.wf
  exact ⟨hout.wf h.wf, Int.lt_of_lt_of_le h.below hhead, hun R h.unmapped hne,
    h.frame.trans (hout.frame h.wf (Int.le_of_lt h.below) hne fun _ _ => Int.ne_of_lt h.below)⟩

theorem frozen_init (hwf : Wf st) (hlt : st.currentEpoch + 2 < 2 ^ 31)
    (hR : R = st.currentEpoch ∨ R = st.currentEpoch + 1) :
    Frozen st st.currentEpoch R (vfsSnapshot st).2 := by
  have hhead : (vfsSnapshot st).2.currentEpoch = st.currentEpoch + 2 := rfl
  refine ⟨snapshot_wf hwf hlt, by omega, ?_, ?_⟩
  · obtain rfl | rfl := hR
    · exact unmapped_of_even hwf.epoch.rows hwf.epoch.head_even
    · exact unmapped_of_head_le hwf.epoch.rows (by omega)
  · obtain rfl | rfl := hR
    · exact (snapshot_move st).frame hwf fun _ _ _ => rfl
    · exact (snapshot_move st).frame hwf fun e h0 hle => snapshot_rule hwf (.inl rfl) h0 hle

/-- The steps after a snapshot `S`: valid, and not at `S`. -/
def AwayFrom (S : Int) (st : State) (op : Op) : Prop := ValidOp st op ∧ op.epoch ≠ some S

theorem frozen_run {st₀ : State} {R₀ S : Int} {ops : List Op} (h : Frozen st₀ R₀ R st)
    (hR : R = S ∨ R % 2 = 0) (hops : Run.AllSteps step (AwayFrom S) st ops) :
    Frozen st₀ R₀ R (run st ops) := by
  refine Run.invariant (Frozen st₀ R₀ R) (fun st op hfr hop => ?_) h hops
  refine frozen_step hfr hop.1 ?_
  obtain rfl | heven := hR
  · exact hop.2
  · -- an even epoch below the head is no epoch of a valid operation
    intro hat
    have hbelow := hfr.below
    obtain ⟨hvalid, -⟩ := hop
    cases op <;> cases hat <;> simp only [ValidOp, Issued] at hvalid <;> omega

theorem reachable_wf {pageSize segmentSize : Nat} (hp : 0 < pageSize) (hs : 0 < segmentSize)
    {ops : List Op} (h : Run.AllSteps step ValidOp (bootstrap pageSize segmentSize) ops) :
    Wf (run (bootstrap pageSize segmentSize) ops) :=
  Run.invariant Wf (fun _ _ hwf hop => step_wf hwf hop) (bootstrap_wf hp hs) h

/-- **Snapshot isolation.** In a volume reached by valid operations, let a snapshot be taken when no
directory shows two children under one name. After any valid operations away from the snapshot, all
reads at the snapshot and at the old head answer as they did at the head just before. -/
theorem snapshot_isolation {pageSize segmentSize : Nat} (hp : 0 < pageSize) (hs : 0 < segmentSize)
    (before after : List Op)
    (hbefore : Run.AllSteps step ValidOp (bootstrap pageSize segmentSize) before)
    (hsnap : ValidOp (run (bootstrap pageSize segmentSize) before) .snapshot)
    (htwins : NoTwins (run (bootstrap pageSize segmentSize) before)
      (run (bootstrap pageSize segmentSize) before).currentEpoch)
    (hafter : Run.AllSteps step
      (AwayFrom (vfsSnapshot (run (bootstrap pageSize segmentSize) before)).1)
      (vfsSnapshot (run (bootstrap pageSize segmentSize) before)).2 after) :
    let st := run (bootstrap pageSize segmentSize) before
    let st' := run (vfsSnapshot st).2 after
    SameReads st st.currentEpoch st' (vfsSnapshot st).1 ∧
      SameReads st st.currentEpoch st' st.currentEpoch := by
  have hwf := reachable_wf hp hs hbefore
  revert hwf hsnap htwins hafter
  generalize run (bootstrap pageSize segmentSize) before = st
  intro hsnap htwins hafter hwf
  have hreads : ∀ R, R = st.currentEpoch ∨ R = st.currentEpoch + 1 →
      SameReads st st.currentEpoch (run (vfsSnapshot st).2 after) R := by
    intro R hR
    have hend := frozen_run (frozen_init hwf hsnap hR)
      (hR.elim (fun h => .inr (h ▸ hwf.epoch.head_even)) .inl) hafter
    have hu : u32 R = R := by
      have h0 := hwf.epoch.head_nonneg
      have h1 := hwf.epoch.head_lt
      exact u32_of_range (by omega) (by omega)
    exact sameReads_of_frame hwf hend.wf hend.frame htwins
      (hwf.epoch.resolve_writable (.inl rfl)) (resolve_unmapped (hu.symm ▸ hend.unmapped))
  exact ⟨hreads _ (.inr rfl), hreads _ (.inl rfl)⟩

theorem noTwins_create : NoTwins (run (bootstrap 8192 1024) [.create 1 [97] 0]) 0 := by
  have hslots : (run (bootstrap 8192 1024) [.create 1 [97] 0]).slots =
      Function.update (fun _ => none) 4 (some ⟨1, [⟨3, 0, 1, 2, some [97]⟩]⟩) := rfl
  have hone : ∀ slot dc, visibleEntry (run (bootstrap 8192 1024) [.create 1 [97] 0]) 0 slot =
      some dc → slot = 4 := by
    intro slot dc h
    by_contra hne
    rw [visibleEntry_none (by rw [hslots, Function.update_of_ne hne])] at h
    cases h
  rintro dir slot slot' name child child' ⟨d, dc, -, -, hdc, -, rfl⟩ ⟨d', dc', -, -, hdc', -, rfl⟩
  obtain rfl := hone slot dc hdc
  obtain rfl := hone slot' dc' hdc'
  rw [hdc] at hdc'
  cases hdc'
  rfl

theorem snapshot_isolation_rename :
    let st := run (bootstrap 8192 1024) [.create 1 [97] 0]
    let st' := run (vfsSnapshot st).2 [.rename 1 [97] 1 [98] 2]
    SameReads st st.currentEpoch st' (vfsSnapshot st).1 ∧
      SameReads st st.currentEpoch st' st.currentEpoch := by
  refine snapshot_isolation (by decide) (by decide) _ _ ⟨.inl rfl, trivial⟩ ?_ noTwins_create
    ⟨⟨.inl rfl, by decide⟩, trivial⟩
  show (0 : Int) + 2 < 2 ^ 31
  decide

/-- Two directories named `a`, made at the heads `0` and `2`, both show at head `2`. After the
snapshot of head `2`, the newer one is renamed at head `4`: the lookup of `a` at the snapshot, which
gave the newer one, now gives the older one. -/
theorem rename_at_head_changes_snapshot_lookup :
    let st := run (bootstrap 8192 1024) [.mkdir 1 [97] 0, .snapshot, .mkdir 1 [97] 2]
    let st' := run (vfsSnapshot st).2 [.rename 1 [97] 1 [98] 4]
    Run.AllSteps step ValidOp (bootstrap 8192 1024) [.mkdir 1 [97] 0, .snapshot, .mkdir 1 [97] 2] ∧
      (vfsSnapshot st).1 = 3 ∧
      Run.AllSteps step (AwayFrom 3) (vfsSnapshot st).2 [.rename 1 [97] 1 [98] 4] ∧
      (vfsOpen st 1 [97] 2).toOption = some 5 ∧ (vfsOpen st' 1 [97] 3).toOption = some 2 := by
  refine ⟨⟨.inl rfl, ?_, .inl rfl, trivial⟩, rfl, ⟨⟨.inl rfl, by decide⟩, trivial⟩, ?_, ?_⟩
  · show (0 : Int) + 2 < 2 ^ 31
    decide
  · decide +kernel
  · decide +kernel

end SphereVFS
