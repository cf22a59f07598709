import SphereVFS.Dir
import SphereVFS.File

/-!
# SphereVFS.Commit

`epoch.c`: snapshots, commit with its conflict scan, and soft-delete; and one step of the volume
for each public operation.

The scan walks the directories visible at the snapshot and, page by page, the version chains of
the files. It stops a file at the first page without a `PageNode`, and gives up below 64 levels.
Sizes and directory entries are not checked.
-/

namespace SphereVFS

def vfsSnapshot (st : State) : Int × State :=
  (st.currentEpoch + 1, { st with currentEpoch := st.currentEpoch + 2 })

def pageConflict (rows : List MapperRow) (sEpoch : Int) (versions : List VersionPage) : Bool :=
  (versions.any fun v => effEpoch rows v.epoch == sEpoch) &&
    versions.any fun v => decide (effEpoch rows v.epoch > sEpoch) && effEpoch rows v.epoch % 2 == 0

/-- The versions of the page a `PageNode` stands for. -/
def versionsOf (st : State) (pn : VPtr) : List VersionPage :=
  match st.pageNodes pn with
  | some n => n.versions
  | none => []

/-- The page loop of the scan: `n` pages from `page` on, stopped by the first unresolved one. -/
def scanPages (sEpoch : Int) (file : VPtr) : Nat → Nat → State → Option Err × State
  | 0, _, st => (none, st)
  | n + 1, page, st =>
    match treeResolvePage st file page false with
    | (none, st1) => (none, st1)
    | (some (pn, _), st1) =>
      if pageConflict st1.mapperTable sEpoch (versionsOf st1 pn) then (some .conflict, st1)
      else scanPages sEpoch file n (page + 1) st1

def scanCount (st : State) (sEpoch : Int) (f : FileNode) : Nat :=
  max 1 ((sizechainGet st sEpoch f.sizes + st.pageSize - 1) / st.pageSize)

def scanList (check : State → VPtr → Option Err × State) : List VPtr → State → Option Err × State
  | [], st => (none, st)
  | v :: vs, st =>
    match check st v with
    | (some e, st1) => (some e, st1)
    | (none, st1) => scanList check vs st1

/-- What the scan does with one slot: the child visible at the snapshot is a directory to descend
into with `dirScan`, or a file. -/
def scanSlot (sEpoch : Int) (dirScan : State → VPtr → Option Err × State) (st : State) (slot : VPtr) :
    Option Err × State :=
  match visibleEntry st sEpoch slot with
  | some dc =>
    if dc.name = none then (none, st)
    else
      match st.nodes dc.childPtr with
      | some (.dir _) => dirScan st dc.childPtr
      | some (.file f) => scanPages sEpoch dc.childPtr (scanCount st sEpoch f) 0 st
      | none => (none, st)
  | none => (none, st)

/-- `commit_scan_dir_impl`, with the levels that are left below `COMMIT_SCAN_MAX_DEPTH`. -/
def commitScanDir (sEpoch : Int) : Nat → State → VPtr → Option Err × State
  | 0, st, _ => (some .full, st)
  | depth + 1, st, dir =>
    match st.nodes dir with
    | some (.dir d) => scanList (scanSlot sEpoch (commitScanDir sEpoch depth)) d.slotList st
    | _ => (none, st)

def commitScanMaxDepth : Nat := 64

def addMapping (st : State) (row : MapperRow) : Option State :=
  (mapperInsert st.mapper row).map fun chain =>
    { st with mapper := chain, mapperTable := st.mapperTable ++ [row] }

def vfsCommit (st : State) (snapshot : Int) : Except Err Unit × State :=
  if snapshot.tmod 2 = 0 then (.error .io, st)
  else if resolve st.mapper snapshot ≠ snapshot then (.error .io, st)
  else
    match commitScanDir (u32 snapshot) commitScanMaxDepth st st.root with
    | (some e, st1) => (.error e, st1)
    | (none, st1) =>
      match addMapping st1 ⟨u32 snapshot, u32 st1.currentEpoch, true⟩ with
      | none => (.error .alreadyExists, st1)
      | some st2 => (.ok (), { st2 with bin := st2.bin ++ [.noop snapshot st2.currentEpoch] })

def vfsDeleteSnapshot (st : State) (snapshot : Int) : Except Err Unit × State :=
  if snapshot.tmod 2 = 0 then (.error .io, st)
  else if resolve st.mapper snapshot ≠ snapshot then (.error .io, st)
  else
    let toEpoch := u32 (u32 snapshot - 1)
    match addMapping st ⟨u32 snapshot, toEpoch, false⟩ with
    | none => (.error .alreadyExists, st)
    | some st1 => (.ok (), { st1 with bin := st1.bin ++ [.noop snapshot toEpoch] })

/-! ## Runs -/

inductive Op where
  | create (parent : VPtr) (name : Name) (epoch : Int)
  | mkdir (parent : VPtr) (name : Name) (epoch : Int)
  | delete (parent : VPtr) (name : Name) (epoch : Int)
  | rmdir (parent : VPtr) (name : Name) (epoch : Int)
  | rename (srcParent : VPtr) (src : Name) (dstParent : VPtr) (dst : Name) (epoch : Int)
  | read (file : VPtr) (offset count epoch : Int)
  | write (file : VPtr) (data : List UInt8) (offset epoch : Int)
  | truncate (file : VPtr) (newSize epoch : Int)
  | snapshot
  | commit (snapshot : Int)
  | deleteSnapshot (snapshot : Int)

def Op.epoch : Op → Option Int
  | .create _ _ epoch | .mkdir _ _ epoch | .delete _ _ epoch | .rmdir _ _ epoch => some epoch
  | .rename _ _ _ _ epoch | .write _ _ _ epoch | .truncate _ _ epoch => some epoch
  | .commit S | .deleteSnapshot S => some S
  | .read _ _ _ _ | .snapshot => none

def step (st : State) : Op → State
  | .create parent name epoch => (vfsCreate st parent name epoch).2
  | .mkdir parent name epoch => (vfsMkdir st parent name epoch).2
  | .delete parent name epoch => (vfsDelete st parent name epoch).2
  | .rmdir parent name epoch => (vfsRmdir st parent name epoch).2
  | .rename srcParent src dstParent dst epoch => (vfsRename st srcParent src dstParent dst epoch).2
  | .read file offset count epoch => (vfsRead st file offset count epoch).2
  | .write file data offset epoch => (vfsWrite st file data offset epoch).2
  | .truncate file newSize epoch => (vfsTruncate st file newSize epoch).2
  | .snapshot => (vfsSnapshot st).2
  | .commit snapshot => (vfsCommit st snapshot).2
  | .deleteSnapshot snapshot => (vfsDeleteSnapshot st snapshot).2

def run (st : State) (ops : List Op) : State := ops.foldl step st

@[simp] theorem run_nil (st : State) : run st [] = st := rfl

@[simp] theorem run_cons (st : State) (op : Op) (ops : List Op) :
    run st (op :: ops) = run (step st op) ops := rfl

/-- Two files and a directory, a snapshot, and after it one file is moved and the other renamed at the
head. -/
def movedFiles : List Op :=
  [.create 1 [97] 0, .create 1 [98] 0, .mkdir 1 [100] 0, .snapshot, .rename 1 [98] 8 [98] 2,
    .rename 1 [97] 1 [99] 2]

end SphereVFS
