import SphereVFS.TreeLocks

/-!
# SphereVFS.FuseLocks

The locks that FUSE callbacks take and leave behind (`fuse_vfs.c`).

Opening a file for writing, and creating one, takes the lock of the file at the current epoch and
keeps it; `release` gives it back. In between, `write` and `truncate` take the same lock again. The
callbacks come one after another, each on any thread. One that has to wait inside `vfs_lock` waits
for ever, since nothing else runs before it returns: `exec` has no result then.

The lock is recursive at epoch `0` only, and there only for the thread that owns it. So a callback
returns exactly if no earlier one left a lock in its way.
-/

namespace SphereVFS
namespace FuseLock

open Lock LockOrder TreeLock

variable {T : Type} [DecidableEq T]

/-! ## One operation, with nobody else running -/

/-- `vfs_lock`, with whether it succeeded; `none` if it waits. -/
def lockCall (s : System T) (t : T) (key epoch : Int) : Option (Bool × System T) :=
  let entered := Lock.step s (.enter t key epoch)
  let request : Request T := ⟨t, key, epoch, .start⟩
  match outcome entered request with
  | .acquired => some (true, Lock.step entered (.resume request))
  | .overflow => some (false, Lock.step entered (.resume request))
  | .waits _ => none

/-- The hold that `vfs_unlock` ends: at epoch `0` one of the thread, at another epoch whoever's. -/
def endsHold (t : T) (key epoch : Int) (h : Hold T) : Bool :=
  h.key == key && h.epoch == epoch && (epoch != 0 || h.thread == t)

def heldAfter (held : List (Hold T)) (t : T) (key epoch : Int) : List (Hold T) :=
  match held.find? (endsHold t key epoch) with
  | some h => held.erase h
  | none => held

/-- `vfs_unlock`. The callbacks do not look at its result. -/
def unlockCall (s : System T) (t : T) (key epoch : Int) : System T :=
  match (s.table key).bind (unlockSection t epoch) with
  | none => s
  | some f =>
    { s with
      table := Function.update s.table key (releaseRef f)
      held := heldAfter s.held t key epoch }

/-- The locks after an operation of thread `t`; `none` if it waits for ever. -/
def exec (t : T) : LockProg → System T → Option (System T)
  | .ret, s => some s
  | .lock key epoch ok fail, s =>
    match lockCall s t key epoch with
    | some (true, s') => exec t ok s'
    | some (false, s') => exec t fail s'
    | none => none
  | .unlock key epoch next, s => exec t next (unlockCall s t key epoch)

/-- `vfs_read`: the FileContents that `link_fc_into_chain` locks. A failed lock only makes the page
read as zeros. -/
def vfsRead (epoch : Int) : List Int → LockProg
  | [] => .ret
  | unit :: units => .lock unit epoch (.unlock unit epoch (vfsRead epoch units)) (vfsRead epoch units)

/-! ## Callbacks -/

structure Mount (T : Type) where
  locks : System T
  currentEpoch : Int
  nextNodeId : Nat
  /-- The pointers of the files that exist. -/
  files : List Int

/-- A callback, with what its lookups found. -/
inductive Callback where
  | openRead (vp : Int)
  | openWrite (vp : Int)
  /-- A create that gets as far as its locks, with the pointer of the new file. -/
  | create (parent vp : Int)
  | write (vp : Int) (units : List Int)
  | truncate (vp : Int) (writes : List (List Int))
  | read (epoch : Int) (units : List Int)
  | release (vp : Int)
  /-- A write to the control file that moves the current epoch. -/
  | control (epoch : Int)
  /-- A callback that fails before it takes a lock. -/
  | refused

/-- The id that the next create takes, a `uint32_t`. -/
def Mount.newNodeId (m : Mount T) : Nat := (m.nextNodeId + 1) % 2 ^ 32

def Mount.prog (m : Mount T) : Callback → LockProg
  | .openRead _ => .ret
  | .openWrite vp => .lock vp m.currentEpoch .ret .ret
  | .create parent vp =>
    lockParentThenChild parent m.newNodeId m.currentEpoch (.lock vp m.currentEpoch .ret .ret)
  | .write vp units => TreeLock.vfsWrite vp m.currentEpoch units
  | .truncate vp writes => TreeLock.vfsTruncate vp m.currentEpoch writes
  | .read epoch units => vfsRead epoch units
  | .release vp => .unlock vp m.currentEpoch .ret
  | .control _ => .ret
  | .refused => .ret

/-- The mount after a callback that left the locks `s`. -/
def Mount.after (m : Mount T) (s : System T) : Callback → Mount T
  | .create _ vp => { m with locks := s, nextNodeId := m.newNodeId, files := vp :: m.files }
  | .control epoch => { m with locks := s, currentEpoch := epoch }
  | _ => { m with locks := s }

def Returns (m : Mount T) (c : T × Callback) : Prop := (exec c.1 (m.prog c.2) m.locks).isSome = true

def step (m : Mount T) (c : T × Callback) : Mount T :=
  match exec c.1 (m.prog c.2) m.locks with
  | some s => m.after s c.2
  | none => m

def Mount.fresh (currentEpoch : Int) (nextNodeId : Nat) (files : List Int) : Mount T :=
  ⟨.init, currentEpoch, nextNodeId, files⟩

section Kinds

variable (kind : Int → Option Kind)

/-- Files that exist are opened, written, cut and released; a new file gets a pointer that no file
has; the parent is a directory, and content units are content units. -/
def Found (m : Mount T) : T × Callback → Prop
  | (_, .openRead vp) => vp ∈ m.files
  | (_, .openWrite vp) => vp ∈ m.files
  | (_, .create parent vp) => kind parent = some .dir ∧ kind vp = some .file ∧ vp ∉ m.files
  | (_, .write vp units) => vp ∈ m.files ∧ ∀ u ∈ units, kind u = some .unit
  | (_, .truncate vp writes) => vp ∈ m.files ∧ ∀ units ∈ writes, ∀ u ∈ units, kind u = some .unit
  | (_, .read _ units) => ∀ u ∈ units, kind u = some .unit
  | (_, .release vp) => vp ∈ m.files
  | (_, .control _) => True
  | (_, .refused) => True

instance Found.decidable (m : Mount T) : (c : T × Callback) → Decidable (Found kind m c)
  | (_, .openRead vp) => inferInstanceAs (Decidable (vp ∈ m.files))
  | (_, .openWrite vp) => inferInstanceAs (Decidable (vp ∈ m.files))
  | (_, .create parent vp) => inferInstanceAs
      (Decidable (kind parent = some .dir ∧ kind vp = some .file ∧ vp ∉ m.files))
  | (_, .write vp units) => inferInstanceAs
      (Decidable (vp ∈ m.files ∧ ∀ u ∈ units, kind u = some .unit))
  | (_, .truncate vp writes) => inferInstanceAs
      (Decidable (vp ∈ m.files ∧ ∀ units ∈ writes, ∀ u ∈ units, kind u = some .unit))
  | (_, .read _ units) => inferInstanceAs (Decidable (∀ u ∈ units, kind u = some .unit))
  | (_, .release vp) => inferInstanceAs (Decidable (vp ∈ m.files))
  | (_, .control _) => isTrue trivial
  | (_, .refused) => isTrue trivial

end Kinds

/-- No lock that is held keeps thread `t` from the key: at epoch `0` they are all its own, at another
epoch they are all at epochs other than `0` and this one. -/
def MayLock (held : List (Hold T)) (t : T) (key epoch : Int) : Prop :=
  ∀ h ∈ held, h.key = key →
    if epoch = 0 then h.epoch = 0 ∧ h.thread = t else h.epoch ≠ 0 ∧ h.epoch ≠ epoch

/-- What earlier callbacks must have left: a callback that opens for writing, writes or cuts a file
may lock it; a create may lock the number of its new id, which at a nonzero epoch is not that of its
parent's pointer. -/
def Unblocked (m : Mount T) : T × Callback → Prop
  | (t, .openWrite vp) => MayLock m.locks.held t vp m.currentEpoch
  | (t, .create parent _) => MayLock m.locks.held t m.newNodeId m.currentEpoch ∧
      (m.currentEpoch ≠ 0 → (m.newNodeId : Int) ≠ parent)
  | (t, .write vp _) => MayLock m.locks.held t vp m.currentEpoch
  | (t, .truncate vp _) => MayLock m.locks.held t vp m.currentEpoch
  | _ => True

instance MayLock.decidable (held : List (Hold T)) (t : T) (key epoch : Int) :
    Decidable (MayLock held t key epoch) :=
  inferInstanceAs (Decidable (∀ h ∈ held, h.key = key →
    if epoch = 0 then h.epoch = 0 ∧ h.thread = t else h.epoch ≠ 0 ∧ h.epoch ≠ epoch))

instance Unblocked.decidable (m : Mount T) : (c : T × Callback) → Decidable (Unblocked m c)
  | (t, .openWrite vp) => MayLock.decidable m.locks.held t vp m.currentEpoch
  | (t, .create parent _) => inferInstanceAs
      (Decidable (MayLock m.locks.held t m.newNodeId m.currentEpoch ∧
        (m.currentEpoch ≠ 0 → (m.newNodeId : Int) ≠ parent)))
  | (t, .write vp _) => MayLock.decidable m.locks.held t vp m.currentEpoch
  | (t, .truncate vp _) => MayLock.decidable m.locks.held t vp m.currentEpoch
  | (_, .openRead _) => isTrue trivial
  | (_, .read _ _) => isTrue trivial
  | (_, .release _) => isTrue trivial
  | (_, .control _) => isTrue trivial
  | (_, .refused) => isTrue trivial

instance Returns.decidable (m : Mount T) (c : T × Callback) : Decidable (Returns m c) :=
  inferInstanceAs (Decidable (_ = true))

end FuseLock
end SphereVFS
