import SphereVFS.Isolation

/-!
# SphereVFS.SoftDelete

What a soft-delete does to the views of a volume.

The row from `S` to `S - 1` has no `traversalApply`, so every entry counts where it did before and
no other reader notices. A reader at `S` is sent to the even epoch `S - 1`, the head that the
snapshot froze; nobody can write there any more, so it finds what the snapshot showed when it was
taken.
-/

namespace SphereVFS

variable {st st' : State} {R S : Int} {v : VPtr}

/-! ## Readers through the mapper -/

/-- The listings, sizes and bytes of the nodes of `st`, without the lookups by name. -/
def SameListings (st : State) (R : Int) (st' : State) (R' : Int) : Prop :=
  ∀ v, (st.nodes v).isSome →
    vfsReaddir st' v R' = vfsReaddir st v R ∧ vfsFileSize st' v R' = vfsFileSize st v R ∧
    ∀ offset count, (vfsRead st' v offset count R').1 = (vfsRead st v offset count R).1

theorem sameListings_of_views (hwf : Wf st) (hwf' : Wf st') {R' e e' : Int} (h : Frame st R st' R')
    (he : resolve st.mapperTable e = R) (he' : resolve st'.mapperTable e' = R') :
    SameListings st e st' e' :=
  fun _ hv => ⟨vfsReaddir_frame hwf.dir h hv he he', vfsFileSize_frame h hv he he',
    vfsRead_frame hwf.file hwf'.file h hv he he'⟩

structure SameAt (st st' : State) (e : Int) : Prop where
  openAt : ∀ v name, vfsOpen st' v name e = vfsOpen st v name e
  readdir : ∀ v, vfsReaddir st' v e = vfsReaddir st v e
  fileSize : ∀ v, vfsFileSize st' v e = vfsFileSize st v e
  read : ∀ v offset count, (vfsRead st' v offset count e).1 = (vfsRead st v offset count e).1

theorem vfsDeleteSnapshot_ok (hwf : Wf st) (hodd : S % 2 = 1) (hpos : 0 < S)
    (hlt : S < st.currentEpoch) (hok : (vfsDeleteSnapshot st S).1 = .ok ()) :
    Mapped st S (S - 1) false (vfsDeleteSnapshot st S).2 := by
  obtain hs | hm := vfsDeleteSnapshot_cases hwf hodd hpos hlt
  · -- a success has added a row
    rw [vfsDeleteSnapshot] at hok hs
    split at hok
    · cases hok
    rename_i h1
    rw [if_neg h1] at hs
    split at hok
    · cases hok
    rename_i h2
    rw [if_neg h2] at hs
    dsimp only at hok hs
    split at hok
    · cases hok
    · rename_i st1 hadd
      rw [hadd] at hs
      dsimp only at hs
      have hmapper : st1.mapper = st.mapper := by rw [← hs]
      rw [addMapping_eq_some hadd] at hmapper
      exact absurd hmapper (List.cons_ne_self _ _)
  · exact hm

theorem Mapped.resolve_other {toEpoch e : Int} {apply : Bool} (hm : Mapped st S toEpoch apply st')
    (hne : u32 e ≠ S) : resolve st'.mapperTable e = resolve st.mapperTable e := by
  rw [hm.table, resolve, resolve, find_append ⟨S, toEpoch, apply⟩ hm.active.2.2.2]
  simp [hne]

theorem Mapped.resolve_self {toEpoch : Int} {apply : Bool} (hm : Mapped st S toEpoch apply st')
    (hu : u32 S = S) : resolve st'.mapperTable S = toEpoch := by
  rw [hm.table, resolve, find_append ⟨S, toEpoch, apply⟩ hm.active.2.2.2]
  simp [hu]

theorem Mapped.sameAt_delete {e : Int} (hm : Mapped st S (S - 1) false st') (hwf : Wf st)
    (hne : u32 e ≠ S) : SameAt st st' e := by
  have hres := hm.resolve_other hne
  have hwf' := hm.wf hwf
  have hframe := hm.frame_delete hwf (resolve st.mapperTable e)
  have hnodes := hm.move.nodes
  have hentry := hframe.entries
  refine ⟨fun v name => ?_, fun v => ?_, fun v => ?_, fun v offset count => ?_⟩
  · have hcheck : ∀ slot, checkSlotForName st' (resolve st.mapperTable e) name slot =
        checkSlotForName st (resolve st.mapperTable e) name slot := by
      intro slot
      rw [checkSlotForName, checkSlotForName, hentry slot]
    rcases hn : st.nodes v with _ | d | f
    · simp only [vfsOpen, dirchainFindChild, hnodes, hn]
    · simp only [vfsOpen, dirchainFindChild, hnodes, hn, hres, funext hcheck, hcheck]
    · simp only [vfsOpen, dirchainFindChild, hnodes, hn]
  · cases hv : st.nodes v with
    | none => simp only [vfsReaddir, hnodes, hv]
    | some n => exact vfsReaddir_frame hwf.dir hframe (by simp [hv]) rfl hres
  · cases hv : st.nodes v with
    | none => simp only [vfsFileSize, hnodes, hv]
    | some n => exact vfsFileSize_frame hframe (by simp [hv]) rfl hres
  · cases hv : st.nodes v with
    | none =>
      have hsize : ∀ st : State, st.nodes v = none → vfsFileSize st v e = -1 := by
        intro st h
        simp [vfsFileSize, h]
      simp only [vfsRead, hsize st hv, hsize st' (by rw [hnodes, hv])]
      split
      · rfl
      · rw [if_pos (by omega), if_pos (by omega)]
    | some n =>
      exact vfsRead_frame hwf.file hwf'.file hframe (by simp [hv]) rfl hres offset count

/-! ## Runs -/

theorem Outcome.table_append {op : Op} (h : Outcome st op st') (hwf : Wf st) :
    ∃ extra, st'.mapperTable = st.mapperTable ++ extra := by
  cases h with
  | same => exact ⟨[], (List.append_nil _).symm⟩
  | dir _ epoch _ _ _ hw h =>
    exact ⟨[], by rw [(h.keeps hwf.epoch hw hwf.dir).same.table, List.append_nil]⟩
  | write _ epoch _ _ hw h =>
    exact ⟨[], by rw [(h.keeps hwf.epoch hw hwf.file).kept.table, List.append_nil]⟩
  | read _ _ h => exact ⟨[], by rw [(FileEdits.dirsKept h).table, List.append_nil]⟩
  | snapshot hlt => exact ⟨[], (List.append_nil _).symm⟩
  | commit S st1 _ h hm => exact ⟨_, by rw [hm.table, (FileEdits.dirsKept h).table]⟩
  | delete S _ hm => exact ⟨_, hm.table⟩

theorem resolve_append {rows extra : List MapperRow} {e : Int} (h : resolve rows e ≠ e) :
    resolve (rows ++ extra) e = resolve rows e := by
  rw [resolve] at h
  rw [resolve, resolve, List.find?_append]
  cases hf : rows.find? (fun r => r.fromEpoch == u32 e) with
  | none => simp [hf] at h
  | some r => rfl

theorem frozen_run_even {st₀ : State} {R₀ : Int} {ops : List Op} (h : Frozen st₀ R₀ R st)
    (heven : R % 2 = 0) (hops : Run.AllSteps step ValidOp st ops) : Frozen st₀ R₀ R (run st ops) := by
  refine Run.invariant (Frozen st₀ R₀ R) (fun st op hfr hop => frozen_step hfr hop ?_) h hops
  intro hat
  have hbelow := hfr.below
  cases op <;> cases hat <;> simp only [ValidOp, Issued] at hop <;> omega

theorem run_resolve {ops : List Op} {target : Int} (hwf : Wf st)
    (hres : resolve st.mapperTable S = target) (hne : target ≠ S)
    (hops : Run.AllSteps step ValidOp st ops) :
    resolve (run st ops).mapperTable S = target := by
  refine (Run.invariant (fun st => Wf st ∧ resolve st.mapperTable S = target) ?_ ⟨hwf, hres⟩ hops).2
  rintro st op ⟨hwf, hres⟩ hop
  have hout := step_outcome hwf hop
  obtain ⟨extra, htable⟩ := hout.table_append hwf
  refine ⟨hout.wf hwf, ?_⟩
  rw [htable, resolve_append (by rwa [hres]), hres]

/-- **Soft-delete.** A snapshot `S` is taken in a volume reached by valid operations, and soft-deleted
after more of them. The call leaves what every other epoch shows as it was. After any valid operations
the listings, sizes and bytes at `S` are as they were just after it was taken, and so are the lookups
if no directory showed two children under one name then. -/
theorem soft_delete_effect {pageSize segmentSize : Nat} (hp : 0 < pageSize) (hs : 0 < segmentSize)
    (before between after : List Op)
    (hbefore : Run.AllSteps step ValidOp (bootstrap pageSize segmentSize) before)
    (hsnap : ValidOp (run (bootstrap pageSize segmentSize) before) .snapshot) :
    let st := run (bootstrap pageSize segmentSize) before
    let S := (vfsSnapshot st).1
    let taken := (vfsSnapshot st).2
    let st' := run taken between
    let deleted := (vfsDeleteSnapshot st' S).2
    Run.AllSteps step ValidOp taken between → (vfsDeleteSnapshot st' S).1 = .ok () →
    Run.AllSteps step ValidOp deleted after →
      (∀ e, 0 ≤ e → e ≤ st'.currentEpoch → e ≠ S → SameAt st' deleted e) ∧
      SameListings taken S (run deleted after) S ∧
      (NoTwins st st.currentEpoch → SameReads taken S (run deleted after) S) := by
  have hwf := reachable_wf hp hs hbefore
  revert hwf hsnap
  generalize run (bootstrap pageSize segmentSize) before = st
  intro hsnap hwf _ S taken st' deleted hbetween hok hafter
  have heven := hwf.epoch.head_even
  have hnn := hwf.epoch.head_nonneg
  have hS : S = st.currentEpoch + 1 := rfl
  -- the old head is frozen from the snapshot on
  have hmid : Frozen st st.currentEpoch st.currentEpoch st' :=
    frozen_run_even (frozen_init hwf hsnap (.inl rfl)) heven hbetween
  have hlt' : S < st'.currentEpoch := by
    have hbelow := hmid.below
    have heven' := hmid.wf.epoch.head_even
    omega
  have hm := vfsDeleteSnapshot_ok hmid.wf (by omega) (by omega) hlt' hok
  have hrange := hmid.wf.epoch.head_lt
  have hdel : Frozen st st.currentEpoch st.currentEpoch deleted := by
    have hvalid : ValidOp st' (.deleteSnapshot S) := ⟨by omega, by omega, hlt'⟩
    refine frozen_step hmid hvalid ?_
    intro hat
    have := Option.some.inj hat
    omega
  have hend := frozen_run_even hdel heven hafter
  have hres : resolve (run deleted after).mapperTable S = st.currentEpoch := by
    refine run_resolve hdel.wf ?_ (by omega) hafter
    rw [hm.resolve_self (u32_of_range (by omega) (by omega))]
    omega
  have hhead := hwf.epoch.resolve_writable (.inl rfl)
  have htaken := frozen_init (R := S) hwf hsnap (.inr rfl)
  have hresTaken : resolve taken.mapperTable S = S := by
    have hS32 : u32 S = S := u32_of_range (by omega) (by omega)
    exact resolve_unmapped (by rw [hS32]; exact htaken.unmapped)
  have hlistings : SameListings taken S (run deleted after) S := by
    intro v hv
    obtain ⟨hd₁, hs₁, hr₁⟩ := sameListings_of_views hwf htaken.wf htaken.frame hhead hresTaken v hv
    obtain ⟨hd₂, hs₂, hr₂⟩ := sameListings_of_views hwf hend.wf hend.frame hhead hres v hv
    exact ⟨hd₂.trans hd₁.symm, hs₂.trans hs₁.symm,
      fun offset count => (hr₂ offset count).trans (hr₁ offset count).symm⟩
  refine ⟨fun e h0 hle hne => hm.sameAt_delete hmid.wf ?_, hlistings,
    fun htwins v hv => ⟨fun name => ?_, hlistings v hv⟩⟩
  · rwa [u32_of_range h0 (by omega)]
  · rw [vfsOpen_frame hwf.dir hend.wf.dir hend.frame htwins hv hhead hres,
      vfsOpen_frame hwf.dir htaken.wf.dir htaken.frame htwins hv hhead hresTaken]

/-- A file made at the head and deleted at the snapshot is there again at the snapshot after the
soft-delete. -/
theorem soft_delete_effect_restores :
    let st := run (bootstrap 8192 1024) [.create 1 [97] 0]
    let taken := (vfsSnapshot st).2
    let st' := run taken [.delete 1 [97] 1]
    let deleted := (vfsDeleteSnapshot st' 1).2
    (∀ e, 0 ≤ e → e ≤ st'.currentEpoch → e ≠ 1 → SameAt st' deleted e) ∧
      SameReads taken 1 deleted 1 := by
  have hsnap : ValidOp (run (bootstrap 8192 1024) [.create 1 [97] 0]) .snapshot := by
    show (0 : Int) + 2 < 2 ^ 31
    decide
  have h := soft_delete_effect (by decide) (by decide) [.create 1 [97] 0] [.delete 1 [97] 1] []
    ⟨.inl rfl, trivial⟩ hsnap ⟨.inr (by decide +kernel), trivial⟩ rfl trivial
  exact ⟨h.1, h.2.2 noTwins_create⟩

/-- Two directories named `a`, made at the heads `0` and `2`, and the snapshot `3`, soft-deleted at
once. The newer directory is then renamed at head `4`: the lookup of `a` at `3`, which gave the newer
one when the snapshot was taken, gives the older one. -/
theorem rename_at_head_changes_deleted_lookup :
    let before : List Op := [.mkdir 1 [97] 0, .snapshot, .mkdir 1 [97] 2]
    let st := run (bootstrap 8192 1024) before
    let taken := (vfsSnapshot st).2
    let deleted := (vfsDeleteSnapshot taken 3).2
    Run.AllSteps step ValidOp (bootstrap 8192 1024) before ∧ ValidOp st .snapshot ∧
      (vfsSnapshot st).1 = 3 ∧ (vfsDeleteSnapshot taken 3).1 = .ok () ∧
      Run.AllSteps step ValidOp deleted [.rename 1 [97] 1 [98] 4] ∧
      (vfsOpen taken 1 [97] 3).toOption = some 5 ∧
      (vfsOpen (run deleted [.rename 1 [97] 1 [98] 4]) 1 [97] 3).toOption = some 2 := by
  refine ⟨⟨.inl rfl, ?_, .inl rfl, trivial⟩, ?_, rfl, rfl, ⟨.inl rfl, trivial⟩, ?_, ?_⟩
  · show (0 : Int) + 2 < 2 ^ 31
    decide
  · show (2 : Int) + 2 < 2 ^ 31
    decide
  · decide +kernel
  · decide +kernel

end SphereVFS
