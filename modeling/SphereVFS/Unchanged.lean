import SphereVFS.CommitEffect
import SphereVFS.SoftDelete
import SphereVFS.EpochCheck
import SphereVFS.FuseListing
import SphereVFS.FileBytes

/-!
# SphereVFS.Unchanged

What never changes: the volume under an operation that fails or through a read-only mount, and the target of a
snapshot that was resolved.
-/

namespace SphereVFS

variable {st : State} {file : VPtr} {epoch : Int}

def Reached (st : State) : Prop := ∃ pageSize segmentSize ops, 0 < pageSize ∧ 0 < segmentSize ∧
  Run.AllSteps step ValidOp (bootstrap pageSize segmentSize) ops ∧ run (bootstrap pageSize segmentSize) ops = st

theorem Reached.wf : Reached st → Wf st := by
  rintro ⟨pageSize, segmentSize, ops, hp, hs, hops, rfl⟩
  exact reachable_wf hp hs hops

theorem Reached.entryIds : Reached st → EntryIds st := by
  rintro ⟨pageSize, segmentSize, ops, -, -, -, rfl⟩
  exact run_entryIds pageSize segmentSize ops

theorem NothingChanged.refl (st : State) : NothingChanged st st :=
  ⟨rfl, rfl, rfl, fun _ _ _ => rfl, fun _ _ => rfl, fun _ _ => rfl, fun _ _ _ _ => rfl⟩

/-! ## Failures -/

def Op.succeeds (st : State) : Op → Bool
  | .create parent name epoch => (vfsCreate st parent name epoch).1.isOk
  | .mkdir parent name epoch => (vfsMkdir st parent name epoch).1.isOk
  | .delete parent name epoch => (vfsDelete st parent name epoch).1.isOk
  | .rmdir parent name epoch => (vfsRmdir st parent name epoch).1.isOk
  | .rename srcParent src dstParent dst epoch => (vfsRename st srcParent src dstParent dst epoch).1.isOk
  | .read file offset count epoch => (vfsRead st file offset count epoch).1.isOk
  | .write file data offset epoch => (vfsWrite st file data offset epoch).1.isOk
  | .truncate file newSize epoch => (vfsTruncate st file newSize epoch).1.isOk
  | .snapshot => true
  | .commit S => (vfsCommit st S).1.isOk
  | .deleteSnapshot S => (vfsDeleteSnapshot st S).1.isOk

theorem FailsClean.nothingChanged {α : Type} {r : Except Err α × State} (h : FailsClean st r)
    (hfail : r.1.isOk = false) : NothingChanged st r.2 := by
  cases hr : r.1 with
  | ok a => simp [hr, Except.isOk, Except.toBool] at hfail
  | error e =>
    rw [h.volume e hr]
    exact .refl st

theorem vfsWrite_failsClean (hwf : Wf st) (he : Issued st epoch) (file : VPtr) {data : List UInt8} {offset : Int}
    (hrange : offset.toNat + data.length ≤ maxSize st) : FailsClean st (vfsWrite st file data offset epoch) := by
  by_cases hargs : data = [] ∨ offset < 0
  · rw [vfsWrite, if_pos hargs]
    exact .error st _
  rw [not_or] at hargs
  by_cases hw : epochIsWritable st epoch = true
  · rcases hn : st.nodes file with _ | d | f
    · simp only [vfsWrite, hargs, hw, hn]
      exact .error st _
    · simp only [vfsWrite, hargs, hw, hn]
      exact .error st _
    · obtain ⟨st', hcall, -⟩ := Ready.write_ok ⟨hwf, hwf.epoch.writable_of_check he hw, f, hn⟩ _ _ hargs.1 hrange
      rw [Int.toNat_of_nonneg (by omega)] at hcall
      rw [hcall]
      exact .ok _
  · rw [vfsWrite, if_neg (by simpa using hargs), if_pos hw]
    exact .error st _

theorem vfsTruncate_failsClean (hwf : Wf st) (he : Issued st epoch) (file : VPtr) {newSize : Int}
    (hrange : newSize.toNat ≤ maxSize st) : FailsClean st (vfsTruncate st file newSize epoch) := by
  by_cases hneg : newSize < 0
  · rw [vfsTruncate, if_pos hneg]
    exact .error st _
  by_cases hw : epochIsWritable st epoch = true
  · rcases hn : st.nodes file with _ | d | f
    · simp only [vfsTruncate, hneg, hw, hn]
      exact .error st _
    · simp only [vfsTruncate, hneg, hw, hn]
      exact .error st _
    · obtain ⟨st', hcall, -⟩ := Ready.truncate_ok ⟨hwf, hwf.epoch.writable_of_check he hw, f, hn⟩ hrange
      rw [Int.toNat_of_nonneg (by omega)] at hcall
      rw [hcall]
      exact .ok _
  · rw [vfsTruncate, if_neg hneg, if_pos hw]
    exact .error st _

theorem vfsDeleteSnapshot_failsClean (st : State) (S : Int) : FailsClean st (vfsDeleteSnapshot st S) := by
  rw [vfsDeleteSnapshot]
  split
  · exact .error st _
  split
  · exact .error st _
  dsimp only
  split
  · exact .error st _
  · exact .ok _

/-- **A failed operation changes nothing.** In every volume reached by valid operations, a valid operation that
reports an error leaves the mapper, the epochs and every lookup, listing, size and read at every epoch as they
were. -/
theorem failed_op_changes_nothing (hst : Reached st) (op : Op) (hop : ValidOp st op)
    (hfail : op.succeeds st = false) : NothingChanged st (step st op) := by
  have hwf := hst.wf
  cases op with
  | create parent name epoch => exact (vfsCreate_failsClean ..).nothingChanged hfail
  | mkdir parent name epoch => exact (vfsMkdir_failsClean ..).nothingChanged hfail
  | delete parent name epoch => exact (vfsDelete_failsClean ..).nothingChanged hfail
  | rmdir parent name epoch => exact (vfsRmdir_failsClean ..).nothingChanged hfail
  | rename srcParent src dstParent dst epoch =>
    exact (vfsRename_failsClean hwf.dir hst.entryIds ..).nothingChanged hfail
  | read file offset count epoch =>
    exact FileEdits.nothingChanged (vfsRead_edits hwf.file.pagesWf file offset count epoch) hwf
  | write file data offset epoch => exact (vfsWrite_failsClean hwf hop.1 file hop.2).nothingChanged hfail
  | truncate file newSize epoch => exact (vfsTruncate_failsClean hwf hop.1 file hop.2).nothingChanged hfail
  | snapshot => cases hfail
  | commit S =>
    obtain ⟨e, st1, hedits, hcall⟩ | ⟨st1, st', -, -, hcall⟩ := vfsCommit_cases hwf hop.1 hop.2.1 hop.2.2
    · rw [step, hcall]
      exact FileEdits.nothingChanged hedits hwf
    · simp [Op.succeeds, hcall, Except.isOk, Except.toBool] at hfail
  | deleteSnapshot S => exact (vfsDeleteSnapshot_failsClean st S).nothingChanged hfail

theorem failed_op_changes_nothing_rmdir :
    let st := run (bootstrap 8192 1024) [.mkdir 1 [97] 0, .create 2 [98] 0]
    NothingChanged st (step st (.rmdir 1 [97] 0)) :=
  failed_op_changes_nothing ⟨_, _, _, by decide, by decide, by decide +kernel, rfl⟩ _ (by decide +kernel)
    (by decide +kernel)

/-! ## A read-only mount -/

variable {m : FuseVfsState}

theorem fuseStep_readonly (vfsGc : State → Except Err Unit × State) (hm : m.readonly = true) (c : Callback) :
    fuseStep vfsGc m c = m ∨ ∃ fh offset size,
      fuseStep vfsGc m c = { m with vfs := (vfsRead m.vfs fh offset size m.epoch).2 } := by
  cases c with
  | create _ | mkdir _ | unlink _ | rmdir _ | rename _ _ | truncate _ _ _ | write _ _ _ _ =>
    exact .inl (congrArg Prod.snd (if_pos hm))
  | read path size offset fh =>
    rw [fuseStep, fuseVfsRead]
    split
    · exact .inl rfl
    · exact .inr ⟨fh, offset, size, rfl⟩

/-- **A read-only mount changes nothing.** After any callbacks on a read-only mount, commands among them, every
lookup, listing, size and read at every epoch is as it was at the mount, and the control file is empty. -/
theorem readonly_mount_changes_nothing (hst : Reached st) (epoch : Int)
    (vfsGc : State → Except Err Unit × State) (callbacks : List Callback) :
    let mount := fuseVfsInit st ⟨epoch, true⟩
    let after := callbacks.foldl (fuseStep vfsGc) mount
    NothingChanged mount.vfs after.vfs ∧ after.ctlBuf = [] := by
  intro mount
  have hwf : Wf mount.vfs := remount_wf hst.wf
  suffices h : ∀ m : FuseVfsState, Wf m.vfs → m.readonly = true →
      FileEdits m.vfs (callbacks.foldl (fuseStep vfsGc) m).vfs ∧
        (callbacks.foldl (fuseStep vfsGc) m).ctlBuf = m.ctlBuf by
    obtain ⟨hedits, hctl⟩ := h mount hwf rfl
    exact ⟨FileEdits.nothingChanged hedits hwf, hctl⟩
  induction callbacks with
  | nil => exact fun m _ _ => ⟨.refl, rfl⟩
  | cons c callbacks ih =>
    intro m hwf hm
    rw [List.foldl_cons]
    obtain hsame | ⟨fh, offset, size, hread⟩ := fuseStep_readonly vfsGc hm c
    · rw [hsame]
      exact ih m hwf hm
    · have hedits : FileEdits m.vfs (vfsRead m.vfs fh offset size m.epoch).2 := vfsRead_edits hwf.file.pagesWf ..
      obtain ⟨hrest, hctl⟩ := ih { m with vfs := (vfsRead m.vfs fh offset size m.epoch).2 } (hedits.wf hwf) hm
      rw [hread]
      exact ⟨hedits.trans hrest, hctl⟩

theorem readonly_mount_changes_nothing_files :
    let mount := fuseVfsInit (run (bootstrap 8192 1024) movedFiles) ⟨2, true⟩
    NothingChanged mount.vfs ([Callback.create (ascii "/e"), .write (ascii "/c") [1] 0 2,
      .rename (ascii "/c") (ascii "/a"), .write vfsCtlPath (ascii "snapshot") 0 0, .read (ascii "/c") 1 0 2].foldl
        (fuseStep fun st => (.ok (), st)) mount).vfs :=
  (readonly_mount_changes_nothing ⟨8192, 1024, movedFiles, by decide, by decide, movedFiles_valid, rfl⟩ 2
    (fun st => (.ok (), st)) _).1

/-! ## Resolved snapshots -/

/-- **Resolving a snapshot is final.** An epoch that was committed or soft-deleted goes to the same epoch ever
after, in one hop, whatever valid operations follow: it is never writable again, and committing or deleting it
again fails and changes nothing. -/
theorem resolution_is_final (hst : Reached st) (e : Int) (hres : resolve st.mapperTable e ≠ e) (ops : List Op)
    (hops : Run.AllSteps step ValidOp st ops) :
    let after := run st ops
    resolve after.mapperTable e = resolve st.mapperTable e ∧
    resolve after.mapperTable (resolve after.mapperTable e) = resolve after.mapperTable e ∧
    epochIsWritable after e = false ∧ vfsCommit after e = (.error .io, after) ∧
    vfsDeleteSnapshot after e = (.error .io, after) := by
  have hwf' : Wf (run st ops) := Run.invariant Wf (fun _ _ hwf hop => step_wf hwf hop) hst.wf hops
  have hsame : resolve (run st ops).mapperTable e = resolve st.mapperTable e := run_resolve hst.wf rfl hres hops
  dsimp only
  generalize run st ops = after at *
  rw [← hsame] at hres ⊢
  obtain ⟨r, hr', hfrom, hfind⟩ := find_mapped fun h => hres (resolve_unmapped h)
  have hto : resolve after.mapperTable e = r.toEpoch := by rw [resolve, hfind]
  have hok := hwf'.epoch.rows r hr'
  have heven := hok.to_even
  have hodd : e % 2 = 1 := by
    rw [← u32_mod_two e, ← hfrom]
    exact hok.1
  have hchain : resolve after.mapper e ≠ e := by
    refine fun h => (resolve_eq_self_iff fun r hr => hwf'.epoch.rows r ((hwf'.epoch.chain r).1 hr)).1 h r ?_ hfrom
    exact (hwf'.epoch.chain r).2 hr'
  refine ⟨rfl, ?_, ?_, ?_, ?_⟩
  · rw [hto]
    refine resolve_unmapped fun r' hr'' heq => ?_
    have hodd' := (hwf'.epoch.rows r' hr'').1
    rw [heq, u32_mod_two] at hodd'
    omega
  · have hne : e ≠ -1 := by
      rintro rfl
      have hlt := hok.2.2.1.trans hwf'.epoch.head_lt
      rw [hfrom] at hlt
      exact absurd hlt (by decide)
    have hhead : e ≠ after.currentEpoch := by
      have := hwf'.epoch.head_even
      omega
    rw [epochIsWritable, if_neg hne, if_neg hhead, hto, beq_false_of_ne (by omega), ite_self]
  · rw [vfsCommit, if_pos hchain, ite_self]
  · rw [vfsDeleteSnapshot, if_pos hchain, ite_self]

theorem resolution_is_final_commit :
    (vfsDeleteSnapshot (run (run (bootstrap 8192 1024) [.snapshot, .commit 1]) [.snapshot]) 1).1 =
      .error .io :=
  congrArg Prod.fst (resolution_is_final ⟨_, _, _, by decide, by decide, by decide +kernel, rfl⟩ 1
    (by decide +kernel) [.snapshot] (by decide +kernel)).2.2.2.2

end SphereVFS
