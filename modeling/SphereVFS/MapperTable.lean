import SphereVFS.Volume
import SphereVFS.FileSteps
import Mathlib.Data.List.Perm.Basic

/-!
# SphereVFS.MapperTable

The two representations of the epoch mapper: the chain in the pool, to which `mapper_insert`
prepends, and the table in memory, to which `mapper_table_append` appends and which
`mapper_table_init` and `mapper_table_rebuild` read back from the chain, newest row first.

The tables differ in order only, and the checks of `mapper_insert` keep the source epochs distinct
and never sources and targets at once. A lookup then depends on the rows alone, and one hop is
enough.
-/

namespace SphereVFS

variable {st st' : State} {rows rows' : List MapperRow}

/-- `mapper_table_rebuild`: the rows of the chain, in its order. -/
def mapperTableRebuild (st : State) : State := { st with mapperTable := st.mapper }

/-- `vfs_unmount` and `vfs_mount`. The superblock and the pool are as they were; the table is read
from the chain, and the segment cache starts empty. -/
def remount (st : State) : State :=
  { st with
    mapperTable := st.mapper
    tcache := List.replicate tcacheSize ⟨0, false, 0, fun _ => 0⟩
    tcacheNext := 0
    gcGeneration := 0 }

/-! ## Lookups -/

/-- What `mapper_insert` keeps of a chain: rows hold 32-bit epochs, no two have one source, and no
epoch is a source and a target. -/
structure RowsOk (rows : List MapperRow) : Prop where
  range : ∀ r ∈ rows, u32 r.toEpoch = r.toEpoch
  nodup : (rows.map MapperRow.fromEpoch).Nodup
  apart : ∀ r ∈ rows, ∀ r' ∈ rows, r.fromEpoch ≠ r'.toEpoch

theorem RowsOk.find_perm (h : RowsOk rows) (hperm : rows'.Perm rows) (q : Int) :
    rows'.find? (fun r => r.fromEpoch == q) = rows.find? (fun r => r.fromEpoch == q) := by
  have hnodup' : (rows'.map MapperRow.fromEpoch).Nodup := (hperm.map _).nodup_iff.2 h.nodup
  have hsame : ∀ r, rows'.find? (fun r => r.fromEpoch == q) = some r →
      rows.find? (fun r => r.fromEpoch == q) = some r := by
    intro r hr
    have hq : r.fromEpoch = q := by simpa using List.find?_some hr
    have hmem : r ∈ rows := hperm.subset (List.mem_of_find?_eq_some hr)
    cases hf : rows.find? (fun r => r.fromEpoch == q) with
    | none => exact absurd (by simpa using hq) (List.find?_eq_none.1 hf r hmem)
    | some r' =>
      have hq' : r'.fromEpoch = q := by simpa using List.find?_some hf
      rw [List.inj_on_of_nodup_map h.nodup (List.mem_of_find?_eq_some hf) hmem (hq'.trans hq.symm)]
  cases hf : rows'.find? (fun r => r.fromEpoch == q) with
  | some r => exact (hsame r hf).symm
  | none =>
    symm
    rw [List.find?_eq_none] at hf ⊢
    exact fun r hr => hf r (hperm.mem_iff.2 hr)

theorem RowsOk.resolve_perm (h : RowsOk rows) (hperm : rows'.Perm rows) (e : Int) :
    resolve rows' e = resolve rows e := by
  rw [resolve, resolve, h.find_perm hperm]

theorem RowsOk.traversalApply_perm (h : RowsOk rows) (hperm : rows'.Perm rows) (e : Int) :
    traversalApply rows' e = traversalApply rows e := by
  rw [traversalApply, traversalApply, h.find_perm hperm]

theorem RowsOk.resolve_idem (h : RowsOk rows) (e : Int) :
    resolve rows (resolve rows e) = resolve rows e := by
  by_cases hm : Unmapped rows (u32 e)
  · rw [resolve_unmapped hm, resolve_unmapped hm]
  · obtain ⟨r, hr, -, hf⟩ := find_mapped hm
    have hto : resolve rows e = r.toEpoch := by rw [resolve, hf]
    rw [hto]
    apply resolve_unmapped
    rw [h.range r hr]
    exact fun r' hr' => h.apart r' hr' r hr

theorem RowsOk.insert (h : RowsOk rows) {row : MapperRow} (hins : mapperInsert rows row = some rows')
    (hrange : u32 row.toEpoch = row.toEpoch) (hne : row.fromEpoch ≠ row.toEpoch) : RowsOk rows' := by
  rw [mapperInsert] at hins
  split at hins
  · cases hins
  · rename_i hany
    cases hins
    have hclash : ∀ r ∈ rows, r.fromEpoch ≠ row.fromEpoch ∧ r.fromEpoch ≠ row.toEpoch ∧
        r.toEpoch ≠ row.fromEpoch := by
      intro r hr
      have hno : mapperClash r row = false :=
        Bool.eq_false_iff.2 fun hc => hany (List.any_eq_true.2 ⟨r, hr, hc⟩)
      simp only [mapperClash, Bool.or_eq_false_iff, beq_eq_false_iff_ne] at hno
      exact ⟨hno.1.1.1, hno.1.2, hno.2⟩
    refine ⟨?_, ?_, ?_⟩
    · intro r hr
      obtain rfl | hr := List.mem_cons.1 hr
      · exact hrange
      · exact h.range r hr
    · refine List.nodup_cons.2 ⟨fun hmem => ?_, h.nodup⟩
      obtain ⟨r, hr, hfrom⟩ := List.mem_map.1 hmem
      exact (hclash r hr).1 hfrom
    · intro r hr r' hr'
      rw [List.mem_cons] at hr hr'
      rcases hr with rfl | hr <;> rcases hr' with rfl | hr'
      · exact hne
      · exact (hclash r' hr').2.2.symm
      · exact (hclash r hr).2.1
      · exact h.apart r hr r' hr'

/-! ## Steps -/

structure SameMapper (st st' : State) : Prop where
  epoch : st'.currentEpoch = st.currentEpoch
  mapper : st'.mapper = st.mapper
  table : st'.mapperTable = st.mapperTable

theorem DirsKept.sameMapper (h : DirsKept st st') : SameMapper st st' := ⟨h.epoch, h.mapper, h.table⟩

/-- One step of a mounted volume as the mapper sees it. `tree` stands for everything that leaves the
mapper and the head alone. -/
inductive MapperStep (st : State) : State → Prop
  | tree (st' : State) (h : SameMapper st st') : MapperStep st st'
  | snapshot : MapperStep st (vfsSnapshot st).2
  | commit (S : Int) : MapperStep st (vfsCommit st S).2
  | delete (S : Int) : MapperStep st (vfsDeleteSnapshot st S).2
  | rebuild : MapperStep st (mapperTableRebuild st)
  | remount : MapperStep st (remount st)

structure MapperOk (st : State) : Prop where
  rows : RowsOk st.mapper
  perm : st.mapperTable.Perm st.mapper
  even : st.currentEpoch % 2 = 0

theorem SameMapper.mapperOk (h : SameMapper st st') (hok : MapperOk st) : MapperOk st' := by
  refine ⟨?_, ?_, ?_⟩
  · rw [h.mapper]; exact hok.rows
  · rw [h.mapper, h.table]; exact hok.perm
  · rw [h.epoch]; exact hok.even

theorem u32_mod_two (e : Int) : u32 e % 2 = e % 2 := by
  rw [u32]
  omega

theorem u32_u32 (e : Int) : u32 (u32 e) = u32 e := by
  rw [u32, u32]
  omega

theorem MapperOk.addMapping (hok : MapperOk st) {row : MapperRow}
    (hadd : SphereVFS.addMapping st row = some st') (hfrom : row.fromEpoch % 2 = 1)
    (hto : row.toEpoch % 2 = 0) (hrange : u32 row.toEpoch = row.toEpoch) : MapperOk st' := by
  obtain ⟨chain, hins, rfl⟩ := Option.map_eq_some_iff.1 hadd
  have hrows := hok.rows.insert hins hrange (by omega)
  have hchain : chain = row :: st.mapper := by
    rw [mapperInsert] at hins
    split at hins
    · cases hins
    · exact (Option.some.inj hins).symm
  refine ⟨hrows, ?_, hok.even⟩
  subst hchain
  exact (List.perm_append_singleton row st.mapperTable).trans (hok.perm.cons row)

theorem odd_of_tmod {S : Int} (h : ¬ S.tmod 2 = 0) : S % 2 = 1 := by
  have hdvd : ¬ (2 : Int) ∣ S := fun hd => h (Int.tmod_eq_zero_of_dvd hd)
  omega

theorem vfsCommit_mapperOk (hok : MapperOk st) (S : Int) : MapperOk (vfsCommit st S).2 := by
  rw [vfsCommit]
  split
  · exact hok
  · rename_i hodd
    split
    · exact hok
    · have hscan := (commitScanDir_dirsKept (u32 S) commitScanMaxDepth st st.root).sameMapper
      split
      · rename_i e st1 heq
        rw [heq] at hscan
        exact hscan.mapperOk hok
      · rename_i st1 heq
        rw [heq] at hscan
        have hok1 : MapperOk st1 := hscan.mapperOk hok
        split
        · exact hok1
        · rename_i st2 hadd
          have hok2 := hok1.addMapping hadd (by rw [u32_mod_two]; exact odd_of_tmod hodd)
            (by rw [u32_mod_two]; exact hok1.even) (u32_u32 _)
          exact ⟨hok2.rows, hok2.perm, hok2.even⟩

theorem vfsDeleteSnapshot_mapperOk (hok : MapperOk st) (S : Int) :
    MapperOk (vfsDeleteSnapshot st S).2 := by
  rw [vfsDeleteSnapshot]
  split
  · exact hok
  · rename_i hodd
    split
    · exact hok
    · have hS : u32 S % 2 = 1 := by
        rw [u32_mod_two]
        exact odd_of_tmod hodd
      dsimp only
      split
      · exact hok
      · rename_i st1 hadd
        have hok1 := hok.addMapping hadd hS (by rw [u32_mod_two]; omega) (u32_u32 _)
        exact ⟨hok1.rows, hok1.perm, hok1.even⟩

theorem MapperStep.mapperOk (h : MapperStep st st') (hok : MapperOk st) : MapperOk st' := by
  cases h with
  | tree st' h => exact h.mapperOk hok
  | snapshot =>
    refine ⟨hok.rows, hok.perm, ?_⟩
    have heven := hok.even
    simp only [vfsSnapshot]
    omega
  | commit S => exact vfsCommit_mapperOk hok S
  | delete S => exact vfsDeleteSnapshot_mapperOk hok S
  | rebuild => exact ⟨hok.rows, .refl _, hok.even⟩
  | remount => exact ⟨hok.rows, .refl _, hok.even⟩

theorem bootstrap_mapperOk (pageSize segmentSize : Nat) :
    MapperOk (bootstrap pageSize segmentSize) :=
  ⟨⟨nofun, List.nodup_nil, nofun⟩, .refl _, rfl⟩

theorem reachable_mapperOk {pageSize segmentSize : Nat}
    (h : Relation.ReflTransGen MapperStep (bootstrap pageSize segmentSize) st) : MapperOk st := by
  induction h with
  | refl => exact bootstrap_mapperOk pageSize segmentSize
  | tail _ hstep ih => exact hstep.mapperOk ih

/-- **The table and the chain agree.** In every volume reached by snapshots, commits, soft-deletes,
rebuilds of the table and remounts, with any tree operations between them, both representations
answer alike for every epoch; source epochs are distinct and never targets, and one hop is enough. -/
theorem mapper_table_agrees {pageSize segmentSize : Nat}
    (h : Relation.ReflTransGen MapperStep (bootstrap pageSize segmentSize) st) :
    (∀ e, resolve st.mapperTable e = resolve st.mapper e) ∧
      (∀ e, traversalApply st.mapperTable e = traversalApply st.mapper e) ∧
      (st.mapper.map MapperRow.fromEpoch).Nodup ∧
      (∀ r ∈ st.mapper, ∀ r' ∈ st.mapper, r.fromEpoch ≠ r'.toEpoch) ∧
      ∀ e, resolve st.mapper (resolve st.mapper e) = resolve st.mapper e := by
  have hok := reachable_mapperOk h
  exact ⟨hok.rows.resolve_perm hok.perm, hok.rows.traversalApply_perm hok.perm, hok.rows.nodup,
    hok.rows.apart, hok.rows.resolve_idem⟩

/-- Snapshots `1` and `3`, the first committed at head `4`, the second soft-deleted, and the volume
mounted again: the chain has two rows, and the table has them newest first. -/
theorem mapper_table_agrees_remount :
    let st := remount (run (bootstrap 8192 1024) [.snapshot, .snapshot, .commit 1, .deleteSnapshot 3])
    st.mapperTable = [⟨3, 2, false⟩, ⟨1, 4, true⟩] ∧
      ((∀ e, resolve st.mapperTable e = resolve st.mapper e) ∧
        (∀ e, traversalApply st.mapperTable e = traversalApply st.mapper e) ∧
        (st.mapper.map MapperRow.fromEpoch).Nodup ∧
        (∀ r ∈ st.mapper, ∀ r' ∈ st.mapper, r.fromEpoch ≠ r'.toEpoch) ∧
        ∀ e, resolve st.mapper (resolve st.mapper e) = resolve st.mapper e) := by
  have hreach : Relation.ReflTransGen MapperStep (bootstrap 8192 1024)
      (remount (run (bootstrap 8192 1024) [.snapshot, .snapshot, .commit 1, .deleteSnapshot 3])) :=
    ((((Relation.ReflTransGen.single .snapshot).tail .snapshot).tail (.commit 1)).tail
      (.delete 3)).tail .remount
  exact ⟨by decide +kernel, mapper_table_agrees hreach⟩

end SphereVFS
