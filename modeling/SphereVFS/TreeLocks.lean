import SphereVFS.LockSafety
import SphereVFS.Lib.LockOrder
import Mathlib.Data.Prod.Lex

/-!
# SphereVFS.TreeLocks

The locks that the tree operations take (`tree.c`), by any number of threads.

An operation is reduced to its calls of `vfs_lock` and `vfs_unlock`, in the order of the source and
with the paths for a failed lock. The keys of these calls are node pointers, pointers of FileContents
and PageNodes, and node ids, all in one number space. What a pointer's slot holds does not change
while only these operations run, since none of them frees a slot; `kind` says what it is.

The operations ask for directories by rising pointer, then for a node id, and for a file before its
content. That order keeps them from waiting in a circle as long as no node id is the number of a
directory's pointer.
-/

namespace SphereVFS
namespace TreeLock

open Lock LockOrder

abbrev LockProg : Type := LockOrder.Prog Int Int

/-! ## The operations -/

/-- `vfs_create` and `vfs_mkdir` from the id they took: the parent, then the new child; and `next`
after they have succeeded. -/
def lockParentThenChild (parent newNodeId epoch : Int) (next : LockProg) : LockProg :=
  .lock parent epoch
    (.lock newNodeId epoch
      (.unlock newNodeId epoch (.unlock parent epoch next))
      (.unlock parent epoch .ret))
    .ret

def vfsCreate (parent newNodeId epoch : Int) : LockProg :=
  lockParentThenChild parent newNodeId epoch .ret

def vfsMkdir (parent newNodeId epoch : Int) : LockProg :=
  lockParentThenChild parent newNodeId epoch .ret

/-- `vfs_delete` and `vfs_rmdir` from the child they found. -/
def lockChild (foundChildId epoch : Int) : LockProg :=
  .lock foundChildId epoch (.unlock foundChildId epoch .ret) .ret

def vfsDelete (foundChildId epoch : Int) : LockProg := lockChild foundChildId epoch

def vfsRmdir (foundChildId epoch : Int) : LockProg := lockChild foundChildId epoch

/-- The unlocks of both parents, `src_parent` first. -/
def unlockParents (srcParent dstParent epoch : Int) : LockProg :=
  .unlock srcParent epoch (if srcParent = dstParent then .ret else .unlock dstParent epoch .ret)

/-- `vfs_rename` under the locks of the parents. -/
def renameChild (srcParent dstParent childId epoch : Int) : LockProg :=
  .lock childId epoch
    (.unlock childId epoch (unlockParents srcParent dstParent epoch))
    (unlockParents srcParent dstParent epoch)

/-- `vfs_rename` from the child it found: the lower parent pointer first. -/
def vfsRename (srcParent dstParent childId epoch : Int) : LockProg :=
  let locked := renameChild srcParent dstParent childId epoch
  if srcParent < dstParent ∨ srcParent = dstParent then
    .lock srcParent epoch
      (if srcParent = dstParent then locked
        else .lock dstParent epoch locked (.unlock srcParent epoch .ret))
      .ret
  else .lock dstParent epoch (.lock srcParent epoch locked (.unlock dstParent epoch .ret)) .ret

/-- The rest of `vfs_write` under the lock of the file. `units` are the FileContents and PageNodes
that `link_fc_into_chain`, `link_pn_into_chain` and the new versions lock on the way. -/
def writeUnits (file epoch : Int) (next : LockProg) : List Int → LockProg
  | [] => .unlock file epoch next
  | unit :: units =>
    .lock unit epoch (.unlock unit epoch (writeUnits file epoch next units)) (.unlock file epoch .ret)

/-- `vfs_write`, and `next` after it has succeeded. -/
def vfsWriteThen (file epoch : Int) (units : List Int) (next : LockProg) : LockProg :=
  .lock file epoch (writeUnits file epoch next units) .ret

def vfsWrite (file epoch : Int) (units : List Int) : LockProg := vfsWriteThen file epoch units .ret

/-- The writes of zeros by which `vfs_truncate` grows a file, with the units of each. -/
def growWrites (file epoch : Int) : List (List Int) → LockProg
  | [] => .ret
  | units :: rest => vfsWriteThen file epoch units (growWrites file epoch rest)

def vfsTruncate (file epoch : Int) (writes : List (List Int)) : LockProg :=
  .lock file epoch (.unlock file epoch (growWrites file epoch writes)) .ret

/-! ## Threads -/

/-- What a slot of the pool holds. -/
inductive Kind where
  | dir
  | file
  | unit
  deriving DecidableEq, Repr

inductive Call where
  | create (parent epoch : Int)
  | mkdir (parent epoch : Int)
  | delete (foundChildId epoch : Int)
  | rmdir (foundChildId epoch : Int)
  | rename (srcParent dstParent childId epoch : Int)
  | write (file epoch : Int) (units : List Int)
  | truncate (file epoch : Int) (writes : List (List Int))

variable {T : Type}

/-- The locks, what is left of the operation of each thread, the counter of node ids, and the ids in
directory entries. -/
structure TreeSys (T : Type) where
  locks : Lock.System T
  progs : T → LockProg
  nextNodeId : Nat
  nodeIds : List Int

def TreeSys.init : TreeSys T := ⟨.init, fun _ => .ret, 0, []⟩

inductive Event (T : Type) where
  /-- An idle thread calls an operation, and runs it up to its first lock. -/
  | call (t : T) (c : Call)
  /-- A thread calls `vfs_lock`. -/
  | enter (t : T)
  /-- The next section of a call of `vfs_lock`. -/
  | resume (r : Request T)
  /-- A thread calls `vfs_unlock`. -/
  | unlock (t : T)

/-- The id that the next `vfs_create` or `vfs_mkdir` takes, a `uint32_t`. -/
def TreeSys.newNodeId (s : TreeSys T) : Nat := (s.nextNodeId + 1) % 2 ^ 32

/-- `vfs_atomic_add_i32` on `nextNodeId`. -/
def TreeSys.takeNodeId (s : TreeSys T) : TreeSys T :=
  { s with nextNodeId := s.newNodeId, nodeIds := (s.newNodeId : Int) :: s.nodeIds }

variable [DecidableEq T]

def TreeSys.begin (s : TreeSys T) (t : T) (p : LockProg) : TreeSys T :=
  { s with progs := Function.update s.progs t p }

def callStep (s : TreeSys T) (t : T) : Call → TreeSys T
  | .create parent epoch => s.takeNodeId.begin t (vfsCreate parent s.newNodeId epoch)
  | .mkdir parent epoch => s.takeNodeId.begin t (vfsMkdir parent s.newNodeId epoch)
  | .delete foundChildId epoch => s.begin t (vfsDelete foundChildId epoch)
  | .rmdir foundChildId epoch => s.begin t (vfsRmdir foundChildId epoch)
  | .rename srcParent dstParent childId epoch =>
    s.begin t (vfsRename srcParent dstParent childId epoch)
  | .write file epoch units => s.begin t (vfsWrite file epoch units)
  | .truncate file epoch writes => s.begin t (vfsTruncate file epoch writes)

/-- What the next section of a call of `vfs_lock` comes to. -/
def outcome (s : Lock.System T) (r : Request T) : Outcome :=
  match s.table r.key with
  | some f => (lockSection r.thread r.epoch r.phase f).1
  | none => .waits r.phase

/-- The operation after a section of its call of `vfs_lock`. -/
def proceed : Outcome → LockProg → LockProg
  | .acquired, .lock _ _ ok _ => ok
  | .overflow, .lock _ _ _ fail => fail
  | _, p => p

def step (s : TreeSys T) : Event T → TreeSys T
  | .call t c => callStep s t c
  | .enter t =>
    match s.progs t with
    | .lock key epoch _ _ => { s with locks := Lock.step s.locks (.enter t key epoch) }
    | _ => s
  | .resume r =>
    { s with
      locks := Lock.step s.locks (.resume r)
      progs := Function.update s.progs r.thread (proceed (outcome s.locks r) (s.progs r.thread)) }
  | .unlock t =>
    match s.progs t with
    | .unlock key epoch next =>
      { s with
        locks := Lock.step s.locks (.unlock t key epoch)
        progs := Function.update s.progs t next }
    | _ => s

section Kinds

variable (kind : Int → Option Kind)

def Call.Found (nodeIds : List Int) : Call → Prop
  | .create parent _ => kind parent = some .dir
  | .mkdir parent _ => kind parent = some .dir
  | .delete foundChildId _ => foundChildId ∈ nodeIds
  | .rmdir foundChildId _ => foundChildId ∈ nodeIds
  | .rename srcParent dstParent childId _ =>
    kind srcParent = some .dir ∧ kind dstParent = some .dir ∧ childId ∈ nodeIds
  | .write file _ units => kind file = some .file ∧ ∀ u ∈ units, kind u = some .unit
  | .truncate file _ writes =>
    kind file = some .file ∧ ∀ units ∈ writes, ∀ u ∈ units, kind u = some .unit

instance Call.Found.decidable (nodeIds : List Int) : (c : Call) → Decidable (c.Found kind nodeIds)
  | .create parent _ => inferInstanceAs (Decidable (kind parent = some .dir))
  | .mkdir parent _ => inferInstanceAs (Decidable (kind parent = some .dir))
  | .delete foundChildId _ => inferInstanceAs (Decidable (foundChildId ∈ nodeIds))
  | .rmdir foundChildId _ => inferInstanceAs (Decidable (foundChildId ∈ nodeIds))
  | .rename srcParent dstParent childId _ => inferInstanceAs
      (Decidable (kind srcParent = some .dir ∧ kind dstParent = some .dir ∧ childId ∈ nodeIds))
  | .write file _ units => inferInstanceAs
      (Decidable (kind file = some .file ∧ ∀ u ∈ units, kind u = some .unit))
  | .truncate file _ writes => inferInstanceAs
      (Decidable (kind file = some .file ∧ ∀ units ∈ writes, ∀ u ∈ units, kind u = some .unit))

def Enabled (s : TreeSys T) : Event T → Prop
  | .call t c => s.progs t = .ret ∧ c.Found kind s.nodeIds
  | .enter t => (s.progs t).isLock = true ∧ ∀ r ∈ s.locks.requests, r.thread ≠ t
  | .resume r => r ∈ s.locks.requests
  | .unlock t => (s.progs t).isUnlock = true

instance Enabled.decidable (s : TreeSys T) : (ev : Event T) → Decidable (Enabled kind s ev)
  | .call t c => inferInstanceAs (Decidable (s.progs t = .ret ∧ c.Found kind s.nodeIds))
  | .enter t => inferInstanceAs
      (Decidable ((s.progs t).isLock = true ∧ ∀ r ∈ s.locks.requests, r.thread ≠ t))
  | .resume r => inferInstanceAs (Decidable (r ∈ s.locks.requests))
  | .unlock t => inferInstanceAs (Decidable ((s.progs t).isUnlock = true))

def FreshId (s : TreeSys T) : Event T → Prop
  | .call _ (.create _ _) => kind s.newNodeId ≠ some .dir
  | .call _ (.mkdir _ _) => kind s.newNodeId ≠ some .dir
  | _ => True

instance FreshId.decidable (s : TreeSys T) : (ev : Event T) → Decidable (FreshId kind s ev)
  | .call _ (.create _ _) => inferInstanceAs (Decidable (kind s.newNodeId ≠ some .dir))
  | .call _ (.mkdir _ _) => inferInstanceAs (Decidable (kind s.newNodeId ≠ some .dir))
  | .call _ (.delete _ _) => isTrue trivial
  | .call _ (.rmdir _ _) => isTrue trivial
  | .call _ (.rename _ _ _ _) => isTrue trivial
  | .call _ (.write _ _ _) => isTrue trivial
  | .call _ (.truncate _ _ _) => isTrue trivial
  | .enter _ => isTrue trivial
  | .resume _ => isTrue trivial
  | .unlock _ => isTrue trivial

end Kinds

/-- A nonempty set of threads, each in a wait of `vfs_lock` on a key that a member holds. -/
def Deadlocked (s : TreeSys T) (S : Set T) : Prop :=
  S.Nonempty ∧ ∀ t ∈ S, ∃ r ∈ s.locks.requests, r.thread = t ∧ r.phase ≠ .start ∧
    ∃ h ∈ s.locks.held, h.thread ∈ S ∧ h.key = r.key

end TreeLock
end SphereVFS
