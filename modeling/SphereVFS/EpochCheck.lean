import SphereVFS.Resolvable
import SphereVFS.MapperTable
import SphereVFS.RmdirEffect
import SphereVFS.FileBytes

/-!
# SphereVFS.EpochCheck

Which epoch arguments the operations let pass, over all values.

`vfs_epoch_is_writable` rejects what is even and not the head, and negative odd values other than
`-1`. It cannot tell an odd epoch that was never issued from an active snapshot, and `-1` stands for
the head in the check alone: the writers store it as `2 ^ 32 - 1`, where no reader at `-1` looks. At
a live epoch, a call with the same epoch sees what an operation did if the pages of every write come
into view and every name has one slot, the one that `dirchain_find_slotnode` gives.
`vfs_commit` and `vfs_delete_snapshot` have no check but the parity and the mapper, so they take any
odd value whose low word has no row.
-/

namespace SphereVFS

variable {st : State} {e : Int} {dir file : VPtr} {name : Name}

/-- The epochs an operation should take: the head, by its value or as `-1`, or an active snapshot. -/
def Live (st : State) (e : Int) : Prop := e = st.currentEpoch ∨ e = -1 ∨ Active st e

def WriteShown (st : State) (file : VPtr) (e : Int) (data : List UInt8) (offset : Nat) : Prop :=
  (vfsRead (vfsWrite st file data offset e).2 file offset data.length e).1 = .ok data

/-- What an operation that succeeded with the argument did is what a call with the same argument sees:
the bytes of a write; the size and each write of zeros of a truncation; a new name, and no old one. -/
structure OpsVisible (st : State) (e : Int) : Prop where
  write : ∀ file data (offset : Nat), data ≠ [] → offset + data.length ≤ maxSize st →
    (vfsWrite st file data offset e).1 = .ok data.length → WriteShown st file e data offset
  truncate : ∀ file (n : Nat), n ≤ maxSize st → (vfsTruncate st file n e).1 = .ok () →
    vfsFileSize (vfsTruncate st file n e).2 file e = n ∧
      GrowSteps (fun st => WriteShown st file e) file e (n - (vfsFileSize st file e).toNat) st
        (vfsFileSize st file e).toNat (n - (vfsFileSize st file e).toNat)
  create : ∀ dir name child, (vfsCreate st dir name e).1 = .ok child →
    vfsOpen (vfsCreate st dir name e).2 dir name e = .ok child
  mkdir : ∀ dir name child, (vfsMkdir st dir name e).1 = .ok child →
    vfsOpen (vfsMkdir st dir name e).2 dir name e = .ok child
  delete : ∀ dir name, (vfsDelete st dir name e).1 = .ok () →
    vfsOpen (vfsDelete st dir name e).2 dir name e = .error .notFound
  rmdir : ∀ dir name, (vfsRmdir st dir name e).1 = .ok () →
    vfsOpen (vfsRmdir st dir name e).2 dir name e = .error .notFound
  rename : ∀ srcParent src dstParent dst child, vfsOpen st srcParent src e = .ok child →
    (srcParent, src) ≠ (dstParent, dst) → (vfsRename st srcParent src dstParent dst e).1 = .ok () →
      vfsOpen (vfsRename st srcParent src dstParent dst e).2 dstParent dst e = .ok child ∧
      vfsOpen (vfsRename st srcParent src dstParent dst e).2 srcParent src e = .error .notFound

/-- The epoch argument is treated as it should be, by the writers and by the two calls that resolve
a snapshot. -/
structure EpochChecked (st : State) (e : Int) : Prop where
  accepts : epochIsWritable st e = true ↔ Live st e
  visible : epochIsWritable st e = true → OpsVisible st e
  commit : (vfsCommit st e).1 = .ok () → Active st e
  delete : (vfsDeleteSnapshot st e).1 = .ok () → Active st e

/-! ## The check -/

theorem tmod_two_eq_one : e.tmod 2 = 1 ↔ e % 2 = 1 ∧ 0 < e := by
  obtain h | h := Int.le_total 0 e
  · rw [Int.tmod_eq_emod_of_nonneg h]
    omega
  · have hneg : e.tmod 2 = -((-e) % 2) := by
      rw [← Int.tmod_eq_emod_of_nonneg (by omega), Int.neg_tmod, Int.neg_neg]
    omega

theorem epochIsWritable_iff (hne : e ≠ -1) : epochIsWritable st e = true ↔
    e = st.currentEpoch ∨ e % 2 = 1 ∧ 0 < e ∧ resolve st.mapperTable e = e := by
  rw [epochIsWritable, if_neg hne]
  split
  · simp [*]
  · rename_i hhead
    split
    · rename_i hodd
      have := tmod_two_eq_one.1 hodd
      simp [hhead, this.1, this.2]
    · rename_i hodd
      rw [tmod_two_eq_one] at hodd
      simp only [Bool.false_eq_true, hhead, false_or, false_iff]
      exact fun h => hodd ⟨h.1, h.2.1⟩

theorem resolve_eq_self_iff {rows : List MapperRow} {head : Int} (hrows : ∀ r ∈ rows, RowOk head r) :
    resolve rows e = e ↔ Unmapped rows (u32 e) := by
  refine ⟨fun h => ?_, resolve_unmapped⟩
  by_contra hm
  obtain ⟨r, hr, hfrom, hf⟩ := find_mapped hm
  have hto : r.toEpoch = e := by simpa [resolve, hf] using h
  have heven := (hrows r hr).to_even
  have hmod := u32_mod_two e
  have hodd := (hrows r hr).1
  omega

theorem u32_range (e : Int) : 0 ≤ u32 e ∧ u32 e < 2 ^ 32 := by
  rw [u32]
  omega

def ShowsPages (st : State) (file : VPtr) (e : Int) (data : List UInt8) (offset : Nat) : Prop :=
  ∀ lp, offset / st.pageSize ≤ lp → lp ≤ (offset + data.length - 1) / st.pageSize →
    ShowsPage st file data offset e lp

/-- What the operations at a live epoch need. The pages of every write come into view, and so do those of
the zeros that fill a file up. Every name that is found is shown by one slot, the first with the id
that is found. The entry that `vfs_rmdir` takes for an empty directory leads to the one slot that
shows its name, if there is one. -/
structure OpsSafe (st : State) (e : Int) : Prop where
  pages : ∀ file f data (offset : Nat), st.nodes file = some (.file f) → data ≠ [] →
    offset + data.length ≤ maxSize st → ShowsPages st file e data offset
  zeros : ∀ file f (n : Nat), st.nodes file = some (.file f) → n ≤ maxSize st →
    GrowSteps (fun st => ShowsPages st file e) file e (n - (vfsFileSize st file e).toNat) st
      (vfsFileSize st file e).toNat (n - (vfsFileSize st file e).toNat)
  links : ∀ dir name child, vfsOpen st dir name e = .ok child → OnlySlot st dir name e child
  rmdir : ∀ dir d name dc slot, st.nodes dir = some (.dir d) → name ≠ [] → StandsFor st dir name e dc →
    EmptyAt st dc.childPtr e → dirchainFindSlotnode st d dc.childId = some slot →
      ∀ slot' child, Lists st e dir slot' name child → slot' = slot

theorem vfsWrite_shown_iff (h : Ready st file e) {data : List UInt8} {offset : Nat} (hne : data ≠ [])
    (hrange : offset + data.length ≤ maxSize st) :
    WriteShown st file e data offset ↔ ShowsPages st file e data offset := by
  obtain ⟨hwf, he, f, hf⟩ := h
  obtain ⟨st', hcall, hiff⟩ := vfsWrite_shows_iff hwf he hf hne hrange
  rw [WriteShown, hcall]
  exact hiff

theorem growSteps_shown_iff (n : Nat) (h : Ready st file e) {off remaining : Nat}
    (hlimit : remaining ≠ 0 → off + remaining ≤ maxSize st) :
    GrowSteps (fun st => WriteShown st file e) file e n st off remaining ↔
      GrowSteps (fun st => ShowsPages st file e) file e n st off remaining := by
  induction n generalizing st off remaining with
  | zero => exact Iff.rfl
  | succ n ih =>
    refine imp_congr_right fun hrem => ?_
    have hne : List.replicate (min remaining 8192) (0 : UInt8) ≠ [] := by
      rw [Ne, List.replicate_eq_nil_iff]
      omega
    have hrange : off + (List.replicate (min remaining 8192) (0 : UInt8)).length ≤ maxSize st := by
      have := hlimit hrem
      rw [List.length_replicate]
      omega
    obtain ⟨st', hcall, hready, hmax, -⟩ := h.write_ok _ _ hne hrange
    refine and_congr (vfsWrite_shown_iff h hne hrange) ?_
    rw [hcall]
    exact ih hready (by have := hlimit hrem; omega)

theorem isFile_of_write {data : List UInt8} {offset : Nat} (hne : data ≠ [])
    (h : (vfsWrite st file data offset e).1 = .ok data.length) : ∃ f, st.nodes file = some (.file f) := by
  rw [vfsWrite, if_neg (by simp [hne])] at h
  split at h
  · cases h
  split at h
  · exact ⟨_, ‹_›⟩
  · cases h

theorem isFile_of_truncate {n : Nat} (h : (vfsTruncate st file n e).1 = .ok ()) :
    ∃ f, st.nodes file = some (.file f) := by
  rw [vfsTruncate, if_neg (by omega)] at h
  split at h
  · cases h
  split at h
  · exact ⟨_, ‹_›⟩
  · cases h

section Ops

variable (hwf : Wf st) (he : Writable st e)
include hwf he

theorem deletes_iff (hids : EntryIds st) : (∀ dir name, (vfsDelete st dir name e).1 = .ok () →
      vfsOpen (vfsDelete st dir name e).2 dir name e = .error .notFound) ↔
    ∀ dir name child, vfsOpen st dir name e = .ok child → OnlySlot st dir name e child := by
  constructor
  · intro h dir name child hopen
    obtain ⟨childId, hfind⟩ := vfsOpen_ok hopen
    obtain ⟨d, v, dc, hd, hv, hdc, hname, hchild, -⟩ := findChild_ok hwf.dir hfind
    obtain ⟨slot, s, hslot, hs⟩ := findSlotnode_isSome hwf.dir hids hd hfind
    have hne : name ≠ [] := by
      rintro rfl
      simp [dirchainFindChild] at hfind
    have hok : (vfsDelete st dir name e).1 = .ok () := by
      simp [vfsDelete, hne, hwf.epoch.check_of_writable he, hfind, hd, putTombstone, hslot, hs]
    obtain ⟨d', slot', s', entries, hd', hslot', hs', heq⟩ := vfsDelete_ok hfind hok
    have hgone := h dir name hok
    rw [deleted_open_iff hwf he heq hd' (findSlotnode_mem hslot') hs' hne
      (lists_child_isSome hwf.dir ⟨d, dc, hd, hv, hdc, hname, hchild⟩)] at hgone
    exact ⟨childId, slot', hfind, slotFound_of_others hd' hfind hslot' hwf he hgone, hgone⟩
  · intro h dir name hok
    have hne : name ≠ [] := by
      rintro rfl
      simp [vfsDelete] at hok
    cases hfind : dirchainFindChild st dir name e with
    | error err => simp [vfsDelete, hne, hwf.epoch.check_of_writable he, hfind] at hok
    | ok r =>
      obtain ⟨d, slot, s, entries, hd, hslot, hs, heq⟩ := vfsDelete_ok hfind hok
      obtain ⟨id', slot', hfind', hfound, honly⟩ := h dir name r.1 (by rw [vfsOpen, hfind]; rfl)
      obtain ⟨rfl, hl⟩ := slotFound_eq hd hfind hslot hfind' hfound
      exact (deleted_open_iff hwf he heq hd (findSlotnode_mem hslot) hs hne
        (lists_child_isSome hwf.dir hl)).2 honly

theorem rmdirs_iff (hids : EntryIds st) (hzero : st.slots 0 = none) :
    (∀ dir name, (vfsRmdir st dir name e).1 = .ok () →
      vfsOpen (vfsRmdir st dir name e).2 dir name e = .error .notFound) ↔
    ∀ dir d name dc slot, st.nodes dir = some (.dir d) → name ≠ [] → StandsFor st dir name e dc →
      EmptyAt st dc.childPtr e → dirchainFindSlotnode st d dc.childId = some slot →
        ∀ slot' child, Lists st e dir slot' name child → slot' = slot := by
  constructor
  · intro h dir d name dc slot hd hne hstands hempty hslot
    obtain ⟨hchild, -⟩ := standsFor_slot hwf hd hids hzero hstands
    obtain ⟨slot', s, hslot', hmem, hs, hcall⟩ := vfsRmdir_removed hwf he hd hne hids hzero hstands hempty
    obtain rfl : slot' = slot := by simpa [hslot] using hslot'.symm
    have hgone := h dir name (by rw [hcall])
    rwa [hcall, deleted_open_iff hwf he rfl hd hmem hs hne hchild] at hgone
  · intro h dir name hok
    have hne : name ≠ [] := by
      rintro rfl
      simp [vfsRmdir] at hok
    cases hn : st.nodes dir with
    | none => simp [vfsRmdir, hne, hwf.epoch.check_of_writable he, hn] at hok
    | some node =>
      cases node with
      | file f => simp [vfsRmdir, hne, hwf.epoch.check_of_writable he, hn] at hok
      | dir d =>
        by_cases hstands : ∃ dc, StandsFor st dir name e dc
        swap
        · rw [vfsRmdir_missing hwf he hn hne (not_exists.1 hstands)] at hok
          cases hok
        obtain ⟨dc, hstands⟩ := hstands
        by_cases hempty : EmptyAt st dc.childPtr e
        swap
        · obtain ⟨err, -, hcall⟩ := vfsRmdir_refused hwf he hn hne hstands hempty
          rw [hcall] at hok
          cases hok
        obtain ⟨hchild, -⟩ := standsFor_slot hwf hn hids hzero hstands
        obtain ⟨slot, s, hslot, hmem, hs, hcall⟩ := vfsRmdir_removed hwf he hn hne hids hzero hstands hempty
        rw [hcall]
        exact (deleted_open_iff hwf he rfl hn hmem hs hne hchild).2 (h dir d name dc slot hn hne hstands hempty hslot)

theorem rename_opens (hzero : st.slots 0 = none) {srcParent dstParent child : VPtr} {src dst : Name}
    (hopen : vfsOpen st srcParent src e = .ok child) (honly : OnlySlot st srcParent src e child)
    (hne : (srcParent, src) ≠ (dstParent, dst)) (hok : (vfsRename st srcParent src dstParent dst e).1 = .ok ()) :
    vfsOpen (vfsRename st srcParent src dstParent dst e).2 dstParent dst e = .ok child ∧
      vfsOpen (vfsRename st srcParent src dstParent dst e).2 srcParent src e = .error .notFound := by
  obtain ⟨childId, hfind⟩ := vfsOpen_ok hopen
  obtain ⟨hsrc, hdst, d, slot, s, entries, hd, hslot, hs, hstate⟩ := vfsRename_ok hwf.dir hfind hok
  obtain ⟨id', slot', hfind', hfound, honly⟩ := honly
  obtain ⟨rfl, hl⟩ := slotFound_eq hd hfind hslot hfind' hfound
  have hchild := lists_child_isSome hwf.dir hl
  obtain ⟨rfl, heq⟩ | ⟨hdirs, dDst, hdDst, heq⟩ := hstate
  · have hnames : src ≠ dst := fun h => hne (by rw [h])
    exact ⟨within_target heq hwf he hzero hs hdst,
      (within_source_iff heq hwf he hd hslot hs hchild hsrc hnames).2 honly⟩
  · have hfresh : slot' ≠ st.nextVp + 1 := by
      rintro rfl
      exact hwf.dir.fresh_not_mem hd (by lia) (findSlotnode_mem hslot)
    exact ⟨across_target heq hwf he hdst hfresh,
      (across_source_iff heq hwf he hd hdDst hdirs hslot hs hchild hsrc).2 honly⟩

theorem opsVisible_iff (hids : EntryIds st) (hzero : st.slots 0 = none) :
    OpsVisible st e ↔ OpsSafe st e := by
  have hready : ∀ {file f}, st.nodes file = some (.file f) → Ready st file e := fun hf => ⟨hwf, he, _, hf⟩
  constructor
  · intro h
    refine ⟨?_, ?_, (deletes_iff hwf he hids).1 h.delete, (rmdirs_iff hwf he hids hzero).1 h.rmdir⟩
    · intro file f data offset hf hne hrange
      obtain ⟨st', hcall, -⟩ := (hready hf).write_ok data offset hne hrange
      exact (vfsWrite_shown_iff (hready hf) hne hrange).1 (h.write file data offset hne hrange (by rw [hcall]))
    · intro file f n hf hn
      obtain ⟨st', hcall, -⟩ := (hready hf).truncate_ok hn
      exact (growSteps_shown_iff _ (hready hf) (by omega)).1 (h.truncate file n hn (by rw [hcall])).2
  · intro h
    refine ⟨?_, ?_, ?_, ?_, (deletes_iff hwf he hids).2 h.links, (rmdirs_iff hwf he hids hzero).2 h.rmdir, ?_⟩
    · intro file data offset hne hrange hok
      obtain ⟨f, hf⟩ := isFile_of_write hne hok
      exact (vfsWrite_shown_iff (hready hf) hne hrange).2 (h.pages file f data offset hf hne hrange)
    · intro file n hn hok
      obtain ⟨f, hf⟩ := isFile_of_truncate hok
      obtain ⟨st', hcall, hsize⟩ := (hready hf).truncate_ok hn
      rw [hcall]
      exact ⟨hsize, (growSteps_shown_iff _ (hready hf) (by omega)).2 (h.zeros file f n hf hn)⟩
    · intro dir name child hok
      obtain ⟨err, heq⟩ | ⟨d, -, hne, -, hd, -, heq⟩ := vfsCreate_call st dir name e
      all_goals
        rw [heq] at hok ⊢
        cases hok
      exact (addNode_added hwf he hd (.file _) hne).opens
    · intro dir name child hok
      obtain ⟨err, heq⟩ | ⟨d, hne, -, hd, heq⟩ := vfsMkdir_call st dir name e
      all_goals
        rw [heq] at hok ⊢
        cases hok
      exact (addNode_added hwf he hd (.dir _) hne).opens
    · intro srcParent src dstParent dst child hopen hne hok
      exact rename_opens hwf he hzero hopen (h.links srcParent src child hopen) hne hok

end Ops

/-! ## Commit and soft-delete -/

theorem not_tmod_two (hodd : e % 2 = 1) : ¬ e.tmod 2 = 0 := by
  intro h
  have := Int.dvd_of_tmod_eq_zero h
  omega

theorem vfsDeleteSnapshot_ok_iff_low (hep : EpochWf st) (hodd : e % 2 = 1)
    (hun : Unmapped st.mapperTable (u32 e)) :
    (vfsDeleteSnapshot st e).1 = .ok () ↔ ∀ r ∈ st.mapper, r.toEpoch ≠ u32 e - 1 := by
  have hmod := u32_mod_two e
  have hrange := u32_range e
  have hunc : Unmapped st.mapper (u32 e) := fun r hr => hun r ((hep.chain r).1 hr)
  have hpred : u32 (u32 e - 1) = u32 e - 1 := u32_of_range (by omega) (by omega)
  rw [← addMapping_isSome_iff hep (S := u32 e) (by omega) hun (by omega) false, vfsDeleteSnapshot,
    if_neg (not_tmod_two hodd), if_neg (not_not.2 (resolve_unmapped hunc))]
  dsimp only
  rw [hpred]
  cases addMapping st ⟨u32 e, u32 e - 1, false⟩ with
  | none => simp
  | some st1 => simp

theorem vfsCommit_low (hep : EpochWf st) (hodd : e % 2 = 1) (hun : Unmapped st.mapperTable (u32 e)) :
    (vfsCommit st e).1 = .ok () ↔ (vfsCommit st (u32 e)).1 = .ok () := by
  have hmod := u32_mod_two e
  have hunc : Unmapped st.mapper (u32 e) := fun r hr => hun r ((hep.chain r).1 hr)
  rw [vfsCommit, vfsCommit, if_neg (not_tmod_two hodd), if_neg (not_tmod_two (by omega)),
    if_neg (not_not.2 (resolve_unmapped hunc)),
    if_neg (not_not.2 (resolve_unmapped (by rwa [u32_u32]))), u32_u32]
  generalize commitScanDir (u32 e) commitScanMaxDepth st st.root = r
  obtain ⟨_ | err, st1⟩ := r
  · dsimp only
    cases addMapping st1 ⟨u32 e, u32 st1.currentEpoch, true⟩ with
    | none => simp
    | some st2 => simp
  · simp

theorem vfsCommit_target_taken (hwf : Wf st) (hodd : e % 2 = 1)
    (hun : Unmapped st.mapperTable (u32 e)) (h : ∃ r ∈ st.mapper, r.toEpoch = st.currentEpoch) :
    ¬ (vfsCommit st e).1 = .ok () := by
  have hmod := u32_mod_two e
  have hedits := commitScanDir_edits (u32 e) commitScanMaxDepth st st.root hwf.file.pagesWf
  rw [vfsCommit]
  split
  · simp
  split
  · simp
  generalize commitScanDir (u32 e) commitScanMaxDepth st st.root = r at *
  obtain ⟨_ | err, st1⟩ := r
  · have hkept := FileEdits.dirsKept hedits
    have hep1 := hkept.epochWf hwf.epoch
    have hadd := addMapping_isSome_iff hep1 (S := u32 e) (by omega) (by rwa [hkept.table])
      hep1.head_even true
    rw [hkept.mapper] at hadd
    dsimp only at hkept ⊢
    rw [hep1.u32_issued (.inl rfl)]
    cases hrow : addMapping st1 ⟨u32 e, st1.currentEpoch, true⟩ with
    | none => simp
    | some st2 =>
      obtain ⟨r, hr, hto⟩ := h
      exact absurd (hto.trans hkept.epoch.symm) (hadd.1 (by simp [hrow]) r hr)
  · simp

theorem resolve_self_unmapped (hep : EpochWf st) (h : resolve st.mapper e = e) : Unmapped st.mapperTable (u32 e) :=
  have hrows : ∀ r ∈ st.mapper, RowOk st.currentEpoch r := fun r hr => hep.rows r ((hep.chain r).1 hr)
  fun r hr => (resolve_eq_self_iff hrows).1 h r ((hep.chain r).2 hr)

theorem vfsCommit_ok_odd (hep : EpochWf st) (hok : (vfsCommit st e).1 = .ok ()) :
    e % 2 = 1 ∧ Unmapped st.mapperTable (u32 e) := by
  rw [vfsCommit] at hok
  split at hok
  · cases hok
  rename_i hodd
  split at hok
  · cases hok
  · exact ⟨odd_of_tmod hodd, resolve_self_unmapped hep (not_not.1 ‹_›)⟩

theorem vfsDeleteSnapshot_ok_odd (hep : EpochWf st) (hok : (vfsDeleteSnapshot st e).1 = .ok ()) :
    e % 2 = 1 ∧ Unmapped st.mapperTable (u32 e) := by
  rw [vfsDeleteSnapshot] at hok
  split at hok
  · cases hok
  rename_i hodd
  split at hok
  · cases hok
  · exact ⟨odd_of_tmod hodd, resolve_self_unmapped hep (not_not.1 ‹_›)⟩

/-! ## The condition -/

/-- Commit and soft-delete of a negative argument both fail for reasons of their own: the target of
the soft-delete is taken, and the target of the commit is taken or its scan fails. -/
structure BothRefused (st : State) (e : Int) : Prop where
  negative : e < 0
  delete_taken : ∃ r ∈ st.mapper, r.toEpoch = u32 e - 1
  commit_refused : (∃ r ∈ st.mapper, r.toEpoch = st.currentEpoch) ∨ Active st (u32 e) ∧
    (¬ Shallow st (u32 e) st.root commitScanMaxDepth ∨ Clash st (u32 e) st.root)

/-- The argument is not `-1`. If it is live then the operations have what they need. If it is odd then
it is an active snapshot, or its low word has a row, or neither call can use it. -/
def EpochSafe (st : State) (e : Int) : Prop :=
  e ≠ -1 ∧ (Writable st e → OpsSafe st e) ∧
    (e % 2 = 1 → Active st e ∨ ¬ Unmapped st.mapperTable (u32 e) ∨ BothRefused st e)

theorem Active.resolve_eq (hep : EpochWf st) (h : Active st e) : resolve st.mapperTable e = e :=
  hep.resolve_writable (.inr h)

section Condition

variable (hwf : Wf st) (hroot : isDir st st.root = true) (hids : EntryIds st) (hzero : st.slots 0 = none)
include hwf hroot hids hzero

theorem EpochSafe.checked (h : EpochSafe st e) : EpochChecked st e := by
  have hep := hwf.epoch
  obtain ⟨hne, hops, hsafe⟩ := h
  have haccepts : epochIsWritable st e = true ↔ Live st e := by
    rw [epochIsWritable_iff hne]
    constructor
    · rintro (hhead | ⟨hodd, hpos, hres⟩)
      · exact .inl hhead
      · obtain hact | hm | hrefused := hsafe hodd
        · exact .inr (.inr hact)
        · exact absurd ((resolve_eq_self_iff hep.rows).1 hres) hm
        · exact absurd hrefused.negative (by omega)
    · rintro (hhead | hminus | hact)
      · exact .inl hhead
      · exact absurd hminus hne
      · exact .inr ⟨hact.1, hact.2.1, hact.resolve_eq hep⟩
  refine ⟨haccepts, fun hw => ?_, fun hok => ?_, fun hok => ?_⟩
  · have he : Writable st e := (haccepts.1 hw).imp id (Or.resolve_left · hne)
    exact (opsVisible_iff hwf he hids hzero).2 (hops he)
  · obtain ⟨hodd, hun⟩ := vfsCommit_ok_odd hep hok
    obtain hact | hm | ⟨-, -, htaken | ⟨hlow, hscan⟩⟩ := hsafe hodd
    · exact hact
    · exact absurd hun hm
    · exact absurd hok (vfsCommit_target_taken hwf hodd hun htaken)
    · obtain ⟨-, hsh, hclash⟩ := (vfsCommit_ok_iff hwf hlow hroot).1 ((vfsCommit_low hep hodd hun).1 hok)
      exact absurd hscan (not_or.2 ⟨not_not.2 hsh, hclash⟩)
  · obtain ⟨hodd, hun⟩ := vfsDeleteSnapshot_ok_odd hep hok
    obtain hact | hm | ⟨-, ⟨r, hr, hto⟩, -⟩ := hsafe hodd
    · exact hact
    · exact absurd hun hm
    · exact absurd hto ((vfsDeleteSnapshot_ok_iff_low hep hodd hun).1 hok r hr)

end Condition

end SphereVFS
