import SphereVFS.WriteInv
import SphereVFS.FileSteps

/-!
# SphereVFS.WriteOps

The file operations and the commit scan as sequences of edits.
-/

namespace SphereVFS

variable {st st' : State} {file : VPtr} {f : FileNode} {epoch : Int}

theorem writePage_edits (st : State) (pn : VPtr) (pinned : Bool) (epoch : Int) (off : Nat)
    (bytes : List UInt8) : WriteEdits epoch st (writePage st pn pinned epoch off bytes) := by
  rw [writePage]
  split
  · exact .refl
  rename_i n hn
  split
  · rename_i v hv
    refine .single (.inPlace pn n v _ hn (List.mem_of_find?_eq_some hv) ?_)
    simpa using List.find?_some hv
  · cases pinned with
    | true => exact .single (.version pn n _ hn)
    | false => exact .single (.lost _)

theorem writeLoop_edits (hwf : PagesWf st) (hf : st.nodes file = some (.file f)) (epoch : Int)
    (n page off : Nat) (bytes : List UInt8) (hsegs : ∀ lp < page + n, lp / st.segmentSize < 2 ^ 20) :
    (writeLoop file epoch n st page off bytes).1 = true ∧
      WriteEdits epoch st (writeLoop file epoch n st page off bytes).2 := by
  induction n generalizing st f page off bytes with
  | zero => exact ⟨rfl, .refl⟩
  | succ n ih =>
    have hres := treeResolvePage_spec hwf hf (hsegs page (by omega)) true
    obtain ⟨pn, pinned, hpn, -⟩ := hres.write rfl
    have hedits : WriteEdits epoch st (writePage (treeResolvePage st file page true).2 pn pinned epoch
        off (bytes.take (min (st.pageSize - off) bytes.length))) :=
      (hres.edits.writeEdits epoch).trans (writePage_edits _ pn pinned epoch off _)
    obtain ⟨f', hf'⟩ := hedits.dirsKept.files file f hf
    obtain ⟨htrue, hrest⟩ := ih (hedits.pagesWf hwf) hf' (page + 1) 0
      (bytes.drop (min (st.pageSize - off) bytes.length))
      (by intro lp hlp; rw [hedits.const.2]; exact hsegs lp (by omega))
    rw [writeLoop]
    generalize htr : treeResolvePage st file page true = r at *
    obtain ⟨r1, st1⟩ := r
    obtain rfl : r1 = some (pn, pinned) := hpn
    exact ⟨htrue, hedits.trans hrest⟩

theorem writeLoop_pages (hwf : PagesWf st) (hf : st.nodes file = some (.file f)) (epoch : Int)
    (n page off : Nat) (bytes : List UInt8) (hsegs : ∀ lp < page + n, lp / st.segmentSize < 2 ^ 20) {lp : Nat}
    (hlo : page ≤ lp) (hhi : lp < page + n) :
    ∃ pn, pageNodeOf (writeLoop file epoch n st page off bytes).2 file lp = some pn := by
  induction n generalizing st f page off bytes with
  | zero => omega
  | succ n ih =>
    have hres := treeResolvePage_spec hwf hf (hsegs page (by omega)) true
    obtain ⟨pn, pinned, hpn, hnode, -⟩ := hres.write rfl
    have hstep := writePage_edits (treeResolvePage st file page true).2 pn pinned epoch off
      (bytes.take (min (st.pageSize - off) bytes.length))
    have hwf1 := FileEdits.pagesWf hres.edits hwf
    have hedits := (hres.edits.writeEdits epoch).trans hstep
    have hwf2 := WriteEdits.pagesWf hedits hwf
    obtain ⟨f', hf'⟩ := (WriteEdits.dirsKept hedits).files file f hf
    have hnode2 := WriteEdits.keeps_page hstep hwf1 hnode
    have hsegs2 : ∀ lp < page + 1 + n, lp / (writePage (treeResolvePage st file page true).2 pn pinned epoch
        off (bytes.take (min (st.pageSize - off) bytes.length))).segmentSize < 2 ^ 20 := by
      intro lp hlp
      rw [(WriteEdits.const hedits).2]
      exact hsegs lp (by omega)
    have hrest := (writeLoop_edits hwf2 hf' epoch n (page + 1) 0
      (bytes.drop (min (st.pageSize - off) bytes.length)) hsegs2).2
    have hlater := ih hwf2 hf' (page + 1) 0 (bytes.drop (min (st.pageSize - off) bytes.length)) hsegs2
    rw [writeLoop]
    generalize treeResolvePage st file page true = r at *
    obtain ⟨r1, st1⟩ := r
    obtain rfl : r1 = some (pn, pinned) := hpn
    obtain rfl | hlt := Nat.eq_or_lt_of_le hlo
    · exact ⟨pn, WriteEdits.keeps_page hrest hwf2 hnode2⟩
    · exact hlater hlt (by omega)

theorem segs_of_range (hwf : PagesWf st) {off len : Nat} (hlen : 0 < len)
    (hend : off + len ≤ maxSize st) :
    ∀ lp < off / st.pageSize + ((off + len - 1) / st.pageSize - off / st.pageSize + 1),
      lp / st.segmentSize < 2 ^ 20 := by
  intro lp hlp
  have hdiv : off / st.pageSize ≤ (off + len - 1) / st.pageSize := Nat.div_le_div_right (by omega)
  have hle : lp ≤ (off + len - 1) / st.pageSize := by omega
  exact Nat.lt_of_le_of_lt (Nat.div_le_div_right hle) (seg_lt_of_byte hwf (by omega))

theorem prependSize_edits (hf : st.nodes file = some (.file f)) {n : Nat} (hn : n ≤ maxSize st) :
    WriteEdits epoch st (prependSize st file epoch n) := by
  simp only [prependSize, hf]
  exact .single (.size file f n hf hn)

theorem vfsWrite_edits (hwf : PagesWf st) (file : VPtr) (data : List UInt8) (offset epoch : Int)
    (hrange : offset.toNat + data.length ≤ maxSize st) :
    WriteEdits epoch st (vfsWrite st file data offset epoch).2 := by
  rw [vfsWrite]
  split
  · exact .refl
  rename_i hargs
  split
  · exact .refl
  split
  · rename_i f hf
    have hlen : 0 < data.length := List.length_pos_iff.2 fun h => hargs (.inl h)
    obtain ⟨htrue, hloop⟩ := writeLoop_edits hwf hf epoch _ (offset.toNat / st.pageSize)
      (offset.toNat % st.pageSize) data (segs_of_range hwf hlen hrange)
    obtain ⟨f', hf'⟩ := (WriteEdits.dirsKept hloop).files file f hf
    dsimp only
    generalize hr : writeLoop file epoch _ st (offset.toNat / st.pageSize)
      (offset.toNat % st.pageSize) data = r at *
    obtain ⟨ok, st1⟩ := r
    obtain rfl : ok = true := htrue
    dsimp only
    split
    · refine hloop.trans (prependSize_edits hf' ?_)
      rwa [WriteEdits.maxSize hloop]
    · exact hloop
  · exact .refl

theorem vfsWrite_cases (hep : EpochWf st) (hwf : FileWf st) (he : Issued st epoch) (file : VPtr)
    (data : List UInt8) (offset : Int) (hrange : offset.toNat + data.length ≤ maxSize st) :
    (vfsWrite st file data offset epoch).2 = st ∨
      Writable st epoch ∧ WriteEdits epoch st (vfsWrite st file data offset epoch).2 := by
  by_cases hw : epochIsWritable st epoch
  · exact .inr ⟨hep.writable_of_check he hw, vfsWrite_edits hwf.pagesWf file data offset epoch hrange⟩
  · left
    rw [vfsWrite, if_pos hw]
    split <;> rfl

theorem growLoop_edits (n : Nat) (hwf : PagesWf st) (file : VPtr) (epoch : Int) (off remaining : Nat)
    (hrange : off + remaining ≤ maxSize st) :
    WriteEdits epoch st (growLoop file epoch n st off remaining).2 := by
  induction n generalizing st off remaining with
  | zero => exact .refl
  | succ n ih =>
    rw [growLoop]
    split
    · exact .refl
    have hstep : WriteEdits epoch st
        (vfsWrite st file (List.replicate (min remaining 8192) 0) off epoch).2 :=
      vfsWrite_edits hwf file _ off epoch (by rw [List.length_replicate]; omega)
    dsimp only
    split
    · rename_i e st1 hr
      rwa [hr] at hstep
    · rename_i k st1 hr
      rw [hr] at hstep
      refine hstep.trans (ih (WriteEdits.pagesWf hstep hwf) _ _ ?_)
      rw [WriteEdits.maxSize hstep]
      omega

theorem vfsTruncate_edits (hwf : PagesWf st) (file : VPtr) (newSize epoch : Int)
    (hrange : newSize.toNat ≤ maxSize st) :
    WriteEdits epoch st (vfsTruncate st file newSize epoch).2 := by
  rw [vfsTruncate]
  split
  · exact .refl
  split
  · exact .refl
  split
  · rename_i f hf
    dsimp only
    split
    · exact .refl
    split
    · exact (prependSize_edits hf hrange).tail (.bin _)
    · have hnn : 0 ≤ vfsFileSize st file epoch := by
        simp only [vfsFileSize, hf]
        omega
      exact growLoop_edits _ hwf file epoch _ _ (by omega)
  · exact .refl

theorem vfsTruncate_cases (hep : EpochWf st) (hwf : FileWf st) (he : Issued st epoch) (file : VPtr)
    (newSize : Int) (hrange : newSize.toNat ≤ maxSize st) :
    (vfsTruncate st file newSize epoch).2 = st ∨
      Writable st epoch ∧ WriteEdits epoch st (vfsTruncate st file newSize epoch).2 := by
  by_cases hw : epochIsWritable st epoch
  · exact .inr ⟨hep.writable_of_check he hw, vfsTruncate_edits hwf.pagesWf file newSize epoch hrange⟩
  · left
    rw [vfsTruncate, if_pos hw]
    split <;> rfl

theorem readLoop_edits (hwf : PagesWf st) (hf : st.nodes file = some (.file f)) (readEpoch : Int)
    (n page off remaining : Nat) (hsegs : ∀ lp < page + n, lp / st.segmentSize < 2 ^ 20) :
    FileEdits st (readLoop file readEpoch n st page off remaining).2 := by
  induction n generalizing st f page off remaining with
  | zero => exact .refl
  | succ n ih =>
    have hedits := (treeResolvePage_spec hwf hf (hsegs page (by omega)) false).edits
    obtain ⟨-, hsize, -, -⟩ := FileEdits.const hedits
    obtain ⟨f', hf'⟩ := (FileEdits.dirsKept hedits).files file f hf
    exact hedits.trans (ih (FileEdits.pagesWf hedits hwf) hf' (page + 1) 0 _
      (by intro lp hlp; rw [hsize]; exact hsegs lp (by omega)))

theorem vfsRead_edits (hwf : PagesWf st) (file : VPtr) (offset count epoch : Int) :
    FileEdits st (vfsRead st file offset count epoch).2 := by
  rw [vfsRead]
  split
  · exact .refl
  rename_i hargs
  dsimp only
  split
  · exact .refl
  rename_i hsize
  -- only a file has bytes behind the offset
  have hfile : ∃ f, st.nodes file = some (.file f) ∧
      vfsFileSize st file epoch = sizechainGet st (resolve st.mapperTable epoch) f.sizes := by
    rw [vfsFileSize] at hsize ⊢
    split at hsize
    · rename_i f hf
      exact ⟨f, hf, rfl⟩
    · omega
  obtain ⟨f, hf, heq⟩ := hfile
  have hle := sizechainGet_le (R := resolve st.mapperTable epoch) hwf hf
  rw [heq] at hsize ⊢
  generalize hcount : (if offset + count > _ then _ else _ : Int) = c
  have hc : 0 < c ∧ offset + c ≤ sizechainGet st (resolve st.mapperTable epoch) f.sizes := by
    rw [← hcount]
    split <;> omega
  exact readLoop_edits hwf hf _ _ _ _ _ (segs_of_range hwf (by omega) (by omega))

/-! ## The commit scan -/

theorem scanPages_edits (sEpoch : Int) (n page : Nat) (hwf : PagesWf st)
    (hf : st.nodes file = some (.file f))
    (hsegs : ∀ lp < page + n, lp / st.segmentSize < 2 ^ 20) :
    FileEdits st (scanPages sEpoch file n page st).2 := by
  induction n generalizing st f page with
  | zero => exact .refl
  | succ n ih =>
    have hedits := (treeResolvePage_spec hwf hf (hsegs page (by omega)) false).edits
    obtain ⟨-, hsize, -, -⟩ := FileEdits.const hedits
    obtain ⟨f', hf'⟩ := (FileEdits.dirsKept hedits).files file f hf
    have hrest := ih (page + 1) (FileEdits.pagesWf hedits hwf) hf'
      (by intro lp hlp; rw [hsize]; exact hsegs lp (by omega))
    rw [scanPages]
    generalize treeResolvePage st file page false = r at *
    obtain ⟨_ | ⟨pn, pinned⟩, st1⟩ := r
    · exact hedits
    · dsimp only at hedits hrest ⊢
      split
      · exact hedits
      · exact hedits.trans hrest

theorem scanCount_segs (hwf : PagesWf st) (hf : st.nodes file = some (.file f)) (sEpoch : Int) :
    ∀ lp < 0 + scanCount st sEpoch f, lp / st.segmentSize < 2 ^ 20 := by
  intro lp hlp
  rw [scanCount] at hlp
  obtain rfl | hpos := Nat.eq_zero_or_pos lp
  · rw [Nat.zero_div]
    exact Nat.two_pow_pos 20
  · have hle := sizechainGet_le (R := sEpoch) hwf hf
    have hpp := hwf.page_pos
    have hlt : lp < (sizechainGet st sEpoch f.sizes + st.pageSize - 1) / st.pageSize := by omega
    -- the first byte of the page is below the size
    have hbyte : lp * st.pageSize < sizechainGet st sEpoch f.sizes := by
      have h1 : (lp + 1) * st.pageSize ≤ sizechainGet st sEpoch f.sizes + st.pageSize - 1 :=
        (Nat.le_div_iff_mul_le hpp).1 hlt
      rw [Nat.succ_mul] at h1
      omega
    have hseg := seg_lt_of_byte hwf (Nat.lt_of_lt_of_le hbyte hle)
    rwa [Nat.mul_div_cancel lp hpp] at hseg

theorem scanCount_edits (sEpoch : Int) (st : State) (file : VPtr) (f : FileNode)
    (hf : st.nodes file = some (.file f)) (hwf : PagesWf st) :
    FileEdits st (scanPages sEpoch file (scanCount st sEpoch f) 0 st).2 :=
  scanPages_edits sEpoch _ 0 hwf hf (scanCount_segs hwf hf sEpoch)

theorem commitScanDir_edits (sEpoch : Int) (fuel : Nat) (st : State) (dir : VPtr) :
    PagesWf st → FileEdits st (commitScanDir sEpoch fuel st dir).2 :=
  commitScanDir_rel (R := fun st st' => PagesWf st → FileEdits st st') (fun _ _ => .refl)
    (fun h h' hwf => (h hwf).trans (h' ((h hwf).pagesWf hwf))) (scanCount_edits sEpoch) fuel st dir

theorem scanSlot_edits (sEpoch : Int) (fuel : Nat) (st : State) (slot : VPtr) :
    PagesWf st → FileEdits st (scanSlot sEpoch (commitScanDir sEpoch fuel) st slot).2 :=
  scanSlot_rel (R := fun st st' => PagesWf st → FileEdits st st') (fun _ _ => .refl) (scanCount_edits sEpoch)
    (commitScanDir_edits sEpoch fuel) st slot

end SphereVFS
