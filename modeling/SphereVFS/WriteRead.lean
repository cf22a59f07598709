import SphereVFS.WriteView
import SphereVFS.Isolation

/-!
# SphereVFS.WriteRead

Reading back a write at its own epoch. The size is always right. The bytes are right exactly when
every page of the range meets a condition: the version that is overwritten is the one that readers
see, or the base that is copied agrees with what they see, and the copy is not lost in the segment
cache. None of the three is what `vfs_write` makes sure of.
-/

namespace SphereVFS

variable {st st' : State} {file : VPtr} {f : FileNode} {epoch : Int} {data : List UInt8}
  {offset lp : Nat}

/-- Reads at the epoch after a write of `data` at `offset`: the data in its range, the old bytes
elsewhere below the old size, and the larger of the two sizes. -/
structure ReadsBack (st : State) (file : VPtr) (data : List UInt8) (offset : Nat) (epoch : Int)
    (st' : State) : Prop where
  range : (vfsRead st' file offset data.length epoch).1 = .ok data
  rest : ∀ i : Nat, (i : Int) < vfsFileSize st file epoch →
    i < offset ∨ offset + data.length ≤ i →
    (vfsRead st' file i 1 epoch).1 = (vfsRead st file i 1 epoch).1
  size : vfsFileSize st' file epoch = max (vfsFileSize st file epoch) ((offset + data.length : Nat) : Int)

/-- Position `x` is in the range of the write. -/
def InRange (offset : Nat) (data : List UInt8) (x : Nat) : Prop :=
  offset ≤ x ∧ x < offset + data.length

def HoldsData (st : State) (file : VPtr) (data : List UInt8) (offset : Nat) (epoch : Int) (lp : Nat) :
    Prop :=
  ∀ i < st.pageSize, InRange offset data (lp * st.pageSize + i) →
    pageView st epoch file lp i = data.getD (lp * st.pageSize + i - offset) 0

def BaseAgrees (st : State) (file : VPtr) (data : List UInt8) (offset : Nat) (epoch : Int) (lp : Nat)
    (base : Page) : Prop :=
  ∀ i < st.pageSize, ((lp * st.pageSize + i : Nat) : Int) < vfsFileSize st file epoch →
    ¬ InRange offset data (lp * st.pageSize + i) → base i = pageView st epoch file lp i

/-- A page of the range that the write gets right. With a version stored at the epoch, it has to be
the one readers see. Without one, the page must not come from the segment cache, and the base must
agree with the view. Where the write does not reach the view, the data has to be there already. -/
def KeepsPage (st : State) (file : VPtr) (data : List UInt8) (offset : Nat) (epoch : Int) (lp : Nat) :
    Prop :=
  match inPlaceVersion epoch (pageVersions st file lp) with
  | some v =>
    chainWalk VersionPage.epoch st.mapperTable epoch (pageVersions st file lp) = some v ∨
      HoldsData st file data offset epoch lp
  | none =>
    if foundInCache st file (offset / st.pageSize) lp then HoldsData st file data offset epoch lp
    else BaseAgrees st file data offset epoch lp
      (bytesOf st (cowBase epoch (pageVersions st file lp)))

/-- A page of the range on which readers see the data after the write: what is written comes into view,
or the data is there already. -/
def ShowsPage (st : State) (file : VPtr) (data : List UInt8) (offset : Nat) (epoch : Int) (lp : Nat) :
    Prop :=
  match inPlaceVersion epoch (pageVersions st file lp) with
  | some v =>
    chainWalk VersionPage.epoch st.mapperTable epoch (pageVersions st file lp) = some v ∨
      HoldsData st file data offset epoch lp
  | none => foundInCache st file (offset / st.pageSize) lp = false ∨ HoldsData st file data offset epoch lp

theorem showsPage_iff : ShowsPage st file data offset epoch lp ↔
    ∀ i < st.pageSize, InRange offset data (lp * st.pageSize + i) →
      writtenByte st epoch file lp (foundInCache st file (offset / st.pageSize) lp) offset data i =
        data.getD (lp * st.pageSize + i - offset) 0 := by
  rw [ShowsPage]
  cases hin : inPlaceVersion epoch (pageVersions st file lp) with
  | some v =>
    dsimp only
    by_cases hvis : chainWalk VersionPage.epoch st.mapperTable epoch (pageVersions st file lp) = some v
    · simp only [writtenByte, writeBase, hin, hvis, if_true, true_or, true_iff]
      exact fun i _ h => if_pos h
    · simp only [writtenByte, writeBase, hin, hvis, if_false, false_or]
      exact Iff.rfl
  | none =>
    cases hfound : foundInCache st file (offset / st.pageSize) lp with
    | true =>
      simp only [writtenByte, writeBase, hin, if_true, Bool.true_eq_false, false_or]
      exact Iff.rfl
    | false =>
      simp only [writtenByte, writeBase, hin, Bool.false_eq_true, if_false, true_or, true_iff]
      exact fun i _ h => if_pos h

theorem keepsPage_iff :
    KeepsPage st file data offset epoch lp ↔
      ∀ i < st.pageSize,
        (InRange offset data (lp * st.pageSize + i) →
          writtenByte st epoch file lp (foundInCache st file (offset / st.pageSize) lp) offset data i =
            data.getD (lp * st.pageSize + i - offset) 0) ∧
        (((lp * st.pageSize + i : Nat) : Int) < vfsFileSize st file epoch →
          ¬ InRange offset data (lp * st.pageSize + i) →
          writtenByte st epoch file lp (foundInCache st file (offset / st.pageSize) lp) offset data i =
            pageView st epoch file lp i) := by
  rw [KeepsPage]
  cases hin : inPlaceVersion epoch (pageVersions st file lp) with
  | some v =>
    dsimp only
    by_cases hvis : chainWalk VersionPage.epoch st.mapperTable epoch (pageVersions st file lp) = some v
    · have hview : bytesOf st (some v) = pageView st epoch file lp := by rw [pageView_eq, hvis]
      refine iff_of_true (.inl hvis) fun i _ => ?_
      simp only [writtenByte, writeBase, hin, hvis, if_true, hview]
      exact ⟨fun h => if_pos h, fun _ h => if_neg h⟩
    · simp only [writtenByte, writeBase, hin, hvis, if_false, false_or]
      exact ⟨fun h i hi => ⟨h i hi, fun _ _ => trivial⟩, fun h i hi => (h i hi).1⟩
  | none =>
    dsimp only
    split
    · rename_i hfound
      simp only [writtenByte, writeBase, hin, hfound, if_true]
      exact ⟨fun h i hi => ⟨h i hi, fun _ _ => trivial⟩, fun h i hi => (h i hi).1⟩
    · rename_i hfound
      simp only [writtenByte, writeBase, hin, hfound]
      constructor
      · intro h i hi
        refine ⟨fun hr => if_pos hr, fun hlt hr => ?_⟩
        exact (if_neg hr).trans (h i hi hlt hr)
      · intro h i hi hlt hr
        exact (if_neg hr).symm.trans ((h i hi).2 hlt hr)

/-! ## The call -/

def ViewWritten (st : State) (file : VPtr) (data : List UInt8) (offset : Nat) (epoch : Int) (st' : State) :
    Prop :=
  ∀ lp i, i < st.pageSize → pageView st' epoch file lp i =
    if offset / st.pageSize ≤ lp ∧ lp ≤ (offset + data.length - 1) / st.pageSize then
      writtenByte st epoch file lp (foundInCache st file (offset / st.pageSize) lp) offset data i
    else pageView st epoch file lp i

theorem prependSize_reads (hep : EpochWf st) (he : Writable st epoch)
    (hf : st.nodes file = some (.file f)) (n : Nat) :
    vfsFileSize (prependSize st file epoch n) file epoch = n ∧
      ∀ lp, pageView (prependSize st file epoch n) epoch file lp = pageView st epoch file lp := by
  have happ : applicable st.mapperTable epoch (u32 epoch) = true := by
    rw [hep.u32_issued he.issued]
    exact hep.applicable_at he
  have htake : chainWalk FileSize.epoch st.mapperTable epoch (⟨u32 epoch, n⟩ :: f.sizes) =
      some ⟨u32 epoch, n⟩ := chainWalk_cons_take happ
  simp only [prependSize, hf]
  constructor
  · simp only [vfsFileSize, Function.update_self, hep.resolve_writable he, sizechainGet, htake]
  · exact fun lp => pageView_same (pageNodeOf_size hf n epoch file lp) fun _ => rfl

/-- A write at a writable epoch succeeds. After it the file has the bytes that the page loop left,
and the larger of the two sizes. -/
theorem vfsWrite_ok (hwf : Wf st) (he : Writable st epoch) (hf : st.nodes file = some (.file f))
    (hne : data ≠ []) (hrange : offset + data.length ≤ maxSize st) :
    ∃ st', vfsWrite st file data offset epoch = (.ok data.length, st') ∧ Wf st' ∧
      st'.mapperTable = st.mapperTable ∧ st'.pageSize = st.pageSize ∧
      vfsFileSize st' file epoch =
        max (vfsFileSize st file epoch) ((offset + data.length : Nat) : Int) ∧
      ViewWritten st file data offset epoch st' := by
  have hlen : 0 < data.length := List.length_pos_iff.2 hne
  have hsegs := segs_of_range hwf.file.pagesWf hlen hrange
  have hdiv : offset / st.pageSize ≤ (offset + data.length - 1) / st.pageSize :=
    Nat.div_le_div_right (by omega)
  obtain ⟨htrue, hedits⟩ := writeLoop_edits hwf.file.pagesWf hf epoch _ (offset / st.pageSize)
    (offset % st.pageSize) data hsegs
  have hview := fun lp i => writeLoop_view _ hwf.epoch he hwf.file hf (offset / st.pageSize)
    (offset % st.pageSize) data hsegs (Nat.le_of_lt (Nat.mod_lt _ hwf.file.page_pos)) lp i
  obtain ⟨f1, hf1, hs1⟩ := (writeLoop_sizes file epoch _ st (offset / st.pageSize)
    (offset % st.pageSize) data).files file f hf
  have hkeep := hedits.keeps hwf.epoch he hwf.file
  have hresolve := hwf.epoch.resolve_writable he
  have hcall := hwf.epoch.check_of_writable he
  rw [Nat.div_add_mod'] at hview
  rw [vfsWrite, if_neg (by simp [hne]), if_neg (by simp [hcall])]
  simp only [hf, Int.toNat_natCast]
  generalize writeLoop file epoch _ st (offset / st.pageSize) (offset % st.pageSize) data = r at *
  obtain ⟨ok, st1⟩ := r
  obtain rfl : ok = true := htrue
  dsimp only at *
  have hview' : ViewWritten st file data offset epoch st1 := by
    intro lp i hi
    rw [hview lp i hi]
    congr 1
    rw [eq_iff_iff]
    omega
  have hsize1 : vfsFileSize st1 file epoch = vfsFileSize st file epoch := by
    simp only [vfsFileSize, hf, hf1, hs1, hkeep.kept.table, sizechainGet]
  have he1 := he.kept hkeep.kept
  have hep1 := hkeep.kept.epochWf hwf.epoch
  split
  · rename_i hgrow
    obtain ⟨hsize, hsame⟩ := prependSize_reads hep1 he1 hf1 (offset + data.length)
    have hedit : WriteEdits epoch st1 (prependSize st1 file epoch (offset + data.length)) :=
      prependSize_edits hf1 (by rw [maxSize, hkeep.pageSize, hkeep.segmentSize]; exact hrange)
    have hkeep2 := WriteEdits.keeps (hedits.trans hedit) hwf.epoch he hwf.file
    refine ⟨_, rfl, ⟨hkeep2.kept.epochWf hwf.epoch, hkeep2.kept.dirWf hwf.dir, hkeep2.fileWf⟩,
      hkeep2.kept.table, hkeep2.pageSize, ?_, fun lp i hi => ?_⟩
    · rw [hsize]
      omega
    · rw [hsame, hview' lp i hi]
  · rename_i hgrow
    refine ⟨st1, rfl, ⟨hep1, hkeep.kept.dirWf hwf.dir, hkeep.fileWf⟩, hkeep.kept.table,
      hkeep.pageSize, ?_, hview'⟩
    rw [hsize1]
    omega

theorem read_range_iff (hwf : Wf st) (hres : resolve st.mapperTable epoch = epoch) (hne : data ≠ [])
    (hsize : ((offset + data.length : Nat) : Int) ≤ vfsFileSize st file epoch) :
    (vfsRead st file offset data.length epoch).1 = .ok data ↔
      ∀ x, InRange offset data x → fileByte st epoch file x = data.getD (x - offset) 0 := by
  have hlen : 0 < data.length := List.length_pos_iff.2 hne
  have hcount : readCount (vfsFileSize st file epoch).toNat offset data.length = data.length := by
    rw [readCount]
    omega
  rw [(vfsRead_spec hwf.file file hlen epoch).2, hcount, hres, Except.ok.injEq]
  constructor
  · intro h x hx
    obtain ⟨k, rfl⟩ := Nat.exists_eq_add_of_le hx.1
    have hk : k < data.length := by
      have := hx.2
      omega
    have hget := congrArg (fun l => l.getD k 0) h
    simpa [hk] using hget
  · intro h
    apply List.ext_getElem
    · simp
    · intro k hk hk'
      have hx := h (offset + k) ⟨by omega, by omega⟩
      simpa [hk'] using hx

theorem readsBack_iff (hwf : Wf st) (hwf' : Wf st') (hres : resolve st.mapperTable epoch = epoch)
    (htable : st'.mapperTable = st.mapperTable) (hne : data ≠ [])
    (hsize : vfsFileSize st' file epoch =
      max (vfsFileSize st file epoch) ((offset + data.length : Nat) : Int)) :
    ReadsBack st file data offset epoch st' ↔
      (∀ x, InRange offset data x → fileByte st' epoch file x = data.getD (x - offset) 0) ∧
      ∀ x : Nat, (x : Int) < vfsFileSize st file epoch → ¬ InRange offset data x →
        fileByte st' epoch file x = fileByte st epoch file x := by
  have hres' : resolve st'.mapperTable epoch = epoch := by rw [htable, hres]
  have hrange : (vfsRead st' file offset data.length epoch).1 = .ok data ↔ _ :=
    read_range_iff hwf' hres' hne (by rw [hsize]; omega)
  have hbyte : ∀ x : Nat, (x : Int) < vfsFileSize st file epoch →
      ((vfsRead st' file x 1 epoch).1 = (vfsRead st file x 1 epoch).1 ↔
        fileByte st' epoch file x = fileByte st epoch file x) := by
    intro x hx
    have h1 : readCount (vfsFileSize st file epoch).toNat x 1 = 1 := by
      rw [readCount]
      omega
    have h1' : readCount (vfsFileSize st' file epoch).toNat x 1 = 1 := by
      rw [readCount, hsize]
      omega
    have hr : (vfsRead st file x (1 : Nat) epoch).1 = _ :=
      (vfsRead_spec hwf.file file Nat.one_pos epoch).2
    have hr' : (vfsRead st' file x (1 : Nat) epoch).1 = _ :=
      (vfsRead_spec hwf'.file file Nat.one_pos epoch).2
    rw [h1, hres] at hr
    rw [h1', hres'] at hr'
    rw [Int.natCast_one] at hr hr'
    rw [hr, hr']
    simp
  constructor
  · intro h
    refine ⟨hrange.1 h.range, fun x hx hr => (hbyte x hx).1 (h.rest x hx ?_)⟩
    rw [InRange] at hr
    omega
  · rintro ⟨hin, hout⟩
    refine ⟨hrange.2 hin, fun x hx hr => (hbyte x hx).2 (hout x hx ?_), hsize⟩
    rw [InRange]
    omega

theorem InRange.page {x : Nat} (hx : InRange offset data x) (pageSize : Nat) :
    offset / pageSize ≤ x / pageSize ∧ x / pageSize ≤ (offset + data.length - 1) / pageSize := by
  have h1 := hx.1
  have h2 := hx.2
  exact ⟨Nat.div_le_div_right h1, Nat.div_le_div_right (by omega)⟩

theorem page_split {pageSize i : Nat} (hi : i < pageSize) (lp : Nat) :
    (lp * pageSize + i) / pageSize = lp ∧ (lp * pageSize + i) % pageSize = i := by
  rw [Nat.mul_comm, Nat.mul_add_div (by omega), Nat.mul_add_mod, Nat.div_eq_of_lt hi, Nat.mod_eq_of_lt hi]
  exact ⟨rfl, rfl⟩

section Written

variable (hpp : 0 < st.pageSize) (hps : st'.pageSize = st.pageSize)
  (hview : ViewWritten st file data offset epoch st')
include hpp hps hview

theorem written_range_iff :
    (∀ x, InRange offset data x → fileByte st' epoch file x = data.getD (x - offset) 0) ↔
      ∀ lp, offset / st.pageSize ≤ lp → lp ≤ (offset + data.length - 1) / st.pageSize →
        ShowsPage st file data offset epoch lp := by
  constructor
  · intro hin lp hlo hhi
    refine showsPage_iff.2 fun i hi hx => ?_
    obtain ⟨hdiv, hmod⟩ := page_split hi lp
    rw [← hin _ hx, fileByte, hps, hdiv, hmod, hview lp i hi, if_pos ⟨hlo, hhi⟩]
  · intro hshows x hx
    obtain ⟨hlo, hhi⟩ := hx.page st.pageSize
    have hpage := showsPage_iff.1 (hshows _ hlo hhi) _ (Nat.mod_lt x hpp)
    rw [Nat.div_add_mod'] at hpage
    rw [fileByte, hps, hview _ _ (Nat.mod_lt x hpp), if_pos ⟨hlo, hhi⟩, hpage hx]

/-- The bytes that a write leaves are right, in its range and below the old size, exactly when every
page of the range meets `KeepsPage`. -/
theorem written_bytes_iff :
    ((∀ x, InRange offset data x → fileByte st' epoch file x = data.getD (x - offset) 0) ∧
      ∀ x : Nat, (x : Int) < vfsFileSize st file epoch → ¬ InRange offset data x →
        fileByte st' epoch file x = fileByte st epoch file x) ↔
      ∀ lp, offset / st.pageSize ≤ lp → lp ≤ (offset + data.length - 1) / st.pageSize →
        KeepsPage st file data offset epoch lp := by
  constructor
  · rintro ⟨hin, hout⟩ lp hlo hhi
    rw [keepsPage_iff]
    intro i hi
    obtain ⟨hdiv, hmod⟩ := page_split hi lp
    have hnew : fileByte st' epoch file (lp * st.pageSize + i) =
        writtenByte st epoch file lp (foundInCache st file (offset / st.pageSize) lp) offset data i := by
      rw [fileByte, hps, hdiv, hmod, hview lp i hi, if_pos ⟨hlo, hhi⟩]
    have hold : fileByte st epoch file (lp * st.pageSize + i) = pageView st epoch file lp i := by
      rw [fileByte, hdiv, hmod]
    rw [← hnew, ← hold]
    exact ⟨hin _, hout _⟩
  · intro hkeeps
    have hbyte : ∀ x, fileByte st' epoch file x =
        if offset / st.pageSize ≤ x / st.pageSize ∧
            x / st.pageSize ≤ (offset + data.length - 1) / st.pageSize then
          writtenByte st epoch file (x / st.pageSize)
            (foundInCache st file (offset / st.pageSize) (x / st.pageSize)) offset data
            (x % st.pageSize)
        else fileByte st epoch file x := by
      intro x
      rw [fileByte, hps, hview _ _ (Nat.mod_lt x hpp)]
      rfl
    have hx' : ∀ x, x / st.pageSize * st.pageSize + x % st.pageSize = x := fun x =>
      Nat.div_add_mod' x st.pageSize
    constructor
    · intro x hx
      have hpage := hx.page st.pageSize
      have hk := (keepsPage_iff.1 (hkeeps _ hpage.1 hpage.2) _ (Nat.mod_lt x hpp)).1
      rw [hx'] at hk
      rw [hbyte, if_pos hpage, hk hx]
    · intro x hlt hx
      rw [hbyte]
      split
      · rename_i hp'
        have hk := (keepsPage_iff.1 (hkeeps _ hp'.1 hp'.2) _ (Nat.mod_lt x hpp)).2
        rw [hx'] at hk
        exact hk hlt hx
      · rfl

end Written

/-- A write at a writable epoch succeeds, the file reaches to its end, and the data reads back exactly when
every page of its range meets `ShowsPage`. -/
theorem vfsWrite_shows_iff (hwf : Wf st) (he : Writable st epoch)
    (hf : st.nodes file = some (.file f)) (hne : data ≠ []) (hrange : offset + data.length ≤ maxSize st) :
    ∃ st', vfsWrite st file data offset epoch = (.ok data.length, st') ∧
      ((vfsRead st' file offset data.length epoch).1 = .ok data ↔
        ∀ lp, offset / st.pageSize ≤ lp → lp ≤ (offset + data.length - 1) / st.pageSize →
          ShowsPage st file data offset epoch lp) := by
  obtain ⟨st', hcall, hwf', htable, hps, hsize, hview⟩ := vfsWrite_ok hwf he hf hne hrange
  refine ⟨st', hcall, ?_⟩
  rw [read_range_iff hwf' (by rw [htable, hwf.epoch.resolve_writable he]) hne (by rw [hsize]; omega),
    written_range_iff hwf.file.page_pos hps hview]

theorem vfsWrite_readsBack_iff (hwf : Wf st) (he : Writable st epoch)
    (hf : st.nodes file = some (.file f)) (hne : data ≠ []) (hrange : offset + data.length ≤ maxSize st) :
    ∃ st', vfsWrite st file data offset epoch = (.ok data.length, st') ∧
      (ReadsBack st file data offset epoch st' ↔
        ∀ lp, offset / st.pageSize ≤ lp → lp ≤ (offset + data.length - 1) / st.pageSize →
          KeepsPage st file data offset epoch lp) := by
  obtain ⟨st', hcall, hwf', htable, hps, hsize, hview⟩ := vfsWrite_ok hwf he hf hne hrange
  refine ⟨st', hcall, ?_⟩
  rw [readsBack_iff hwf hwf' (hwf.epoch.resolve_writable he) htable hne hsize,
    written_bytes_iff hwf.file.page_pos hps hview]

/-- **Write then read.** In a volume reached by valid operations, a write at a writable epoch
succeeds, and it reads back at that epoch exactly when every page of its range meets `KeepsPage`. -/
theorem write_reads_back_iff {pageSize segmentSize : Nat} (hp : 0 < pageSize) (hs : 0 < segmentSize)
    (ops : List Op) (hops : Run.AllSteps step ValidOp (bootstrap pageSize segmentSize) ops)
    (file : VPtr) (f : FileNode)
    (hf : (run (bootstrap pageSize segmentSize) ops).nodes file = some (.file f)) (epoch : Int)
    (he : Writable (run (bootstrap pageSize segmentSize) ops) epoch) (data : List UInt8)
    (hne : data ≠ []) (offset : Nat)
    (hrange : offset + data.length ≤ maxSize (run (bootstrap pageSize segmentSize) ops)) :
    let st := run (bootstrap pageSize segmentSize) ops
    ∃ st', vfsWrite st file data offset epoch = (.ok data.length, st') ∧
      (ReadsBack st file data offset epoch st' ↔
        ∀ lp, offset / st.pageSize ≤ lp → lp ≤ (offset + data.length - 1) / st.pageSize →
          KeepsPage st file data offset epoch lp) := by
  exact vfsWrite_readsBack_iff (reachable_wf hp hs hops) he hf hne hrange

/-- Two bytes are written at head `0`, the first one again at the snapshot `1`, which is committed, and both
at head `2`. Then the second one is written at the snapshot `3`, over a copy of what head `2` shows. -/
theorem write_reads_back_after_commit :
    let ops := [Op.create 1 [97] 0, .write 2 [1, 2] 0 0, .snapshot, .write 2 [3] 0 1, .commit 1,
      .write 2 [5, 6] 0 2, .snapshot]
    let st := run (bootstrap 8192 1024) ops
    ∃ st', vfsWrite st 2 [4] 1 3 = (.ok 1, st') ∧ ReadsBack st 2 [4] 1 3 st' := by
  intro ops st
  have hops : Run.AllSteps step ValidOp (bootstrap 8192 1024) ops := by decide +kernel
  have hact : Active st 3 := ⟨by decide, by decide, by decide +kernel, by unfold Unmapped; decide +kernel⟩
  obtain ⟨st', hcall, hiff⟩ := write_reads_back_iff (by decide) (by decide) ops hops 2 _ rfl 3 (.inr hact)
    [4] (by decide) 1 (by decide +kernel)
  refine ⟨st', hcall, hiff.2 fun lp hlo hhi => ?_⟩
  have hlast : (1 + [(4 : UInt8)].length - 1) / st.pageSize = 0 := by decide +kernel
  obtain rfl : lp = 0 := Nat.le_zero.1 (hlast ▸ hhi)
  have hcopy : inPlaceVersion 3 (pageVersions st 2 0) = none ∧ foundInCache st 2 (1 / st.pageSize) 0 = false ∧
      vfsFileSize st 2 3 = 2 ∧ bytesOf st (cowBase 3 (pageVersions st 2 0)) 0 = pageView st 3 2 0 0 := by
    decide +kernel
  obtain ⟨hnew, hcold, hsize, hsame⟩ := hcopy
  rw [KeepsPage, hnew]
  dsimp only
  rw [if_neg (by rw [hcold]; decide)]
  intro i _ hlt hout
  obtain rfl : i = 0 := by
    rw [hsize] at hlt
    rw [InRange, List.length_singleton] at hout
    omega
  exact hsame

/-- A snapshot's write is committed to head `2`, and another byte of the page is written there: the
copy is made from the version of head `0`, and the committed byte is lost. -/
theorem write_after_commit_loses_byte :
    let ops : List Op := [.create 1 [97] 0, .write 2 [1, 2] 0 0, .snapshot, .write 2 [3] 0 1, .commit 1]
    let st := run (bootstrap 8192 1024) ops
    let st' := (vfsWrite st 2 [4] 1 2).2
    Run.AllSteps step ValidOp (bootstrap 8192 1024) ops ∧ st.currentEpoch = 2 ∧
      (vfsWrite st 2 [4] 1 2).1.toOption = some 1 ∧
      (vfsRead st 2 0 2 2).1.toOption = some [3, 2] ∧
      (vfsRead st' 2 0 2 2).1.toOption = some [1, 4] := by
  refine ⟨⟨.inl rfl, ⟨.inl rfl, by decide +kernel⟩, ?_, ⟨.inr (by decide +kernel), by decide +kernel⟩,
    ⟨by decide, by decide, by decide +kernel⟩, trivial⟩, by decide +kernel, ?_, ?_, ?_⟩
  · show (0 : Int) + 2 < 2 ^ 31
    decide
  all_goals decide +kernel

end SphereVFS
