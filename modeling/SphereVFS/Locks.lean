import SphereVFS.Lib.Run
import Mathlib.Logic.Function.Basic
import Mathlib.Data.List.Perm.Basic

/-!
# SphereVFS.Locks

`vfs_lock` and `vfs_unlock` (`vfs.c`): a table of locks by key, each a mutex with a condition
variable, held globally (epoch `0`) or per epoch.

One step is one section of code under a mutex. A call of `vfs_lock` first takes a reference to the
lock of its key under the table's mutex; after that it runs sections under the lock's own mutex,
each from where the last one waited until it waits again or returns. A waiting thread may be woken
at any time. `vfs_unlock` holds the table's mutex throughout and is one step.
-/

namespace SphereVFS
namespace Lock

def maxPerEpochHolders : Nat := 64

variable {T : Type}

/-- `FileLockState`. The first `num_epochs` places of `epoch_keys` and `epoch_counts` are a list. -/
structure FileLockState (T : Type) where
  globalOwner : Option T
  globalDepth : Nat
  globalHeld : Bool
  globalPending : Bool
  epochs : List (Int × Nat)
  totalEpochHolders : Nat
  refcount : Nat

def FileLockState.new : FileLockState T := ⟨none, 0, false, false, [], 0, 1⟩

/-- The first place with the epoch counts one more; `none` if there is no such place. -/
def bumpEpoch (epoch : Int) : List (Int × Nat) → Option (List (Int × Nat))
  | [] => none
  | (e, c) :: rest =>
    if e = epoch then some ((e, c + 1) :: rest) else (bumpEpoch epoch rest).map ((e, c) :: ·)

/-- `per_epoch_add`; `none` for the overflow. -/
def perEpochAdd (f : FileLockState T) (epoch : Int) : Option (FileLockState T) :=
  match bumpEpoch epoch f.epochs with
  | some epochs => some { f with epochs := epochs, totalEpochHolders := f.totalEpochHolders + 1 }
  | none =>
    if maxPerEpochHolders ≤ f.epochs.length then none
    else some { f with
      epochs := f.epochs ++ [(epoch, 1)]
      totalEpochHolders := f.totalEpochHolders + 1 }

/-- The first place with the epoch counts one less, and goes when it comes to zero. -/
def dropEpoch (epoch : Int) : List (Int × Nat) → Option (List (Int × Nat))
  | [] => none
  | (e, c) :: rest =>
    if e = epoch then some (if c - 1 = 0 then rest else (e, c - 1) :: rest)
    else (dropEpoch epoch rest).map ((e, c) :: ·)

/-- `per_epoch_remove`; `none` if the epoch has no holder. -/
def perEpochRemove (f : FileLockState T) (epoch : Int) : Option (FileLockState T) :=
  (dropEpoch epoch f.epochs).map fun epochs =>
    { f with epochs := epochs, totalEpochHolders := f.totalEpochHolders - 1 }

def perEpochHasHolders (f : FileLockState T) (epoch : Int) : Bool :=
  f.epochs.any fun p => p.1 == epoch

/-! ## Sections of `vfs_lock` -/

/-- Where a call of `vfs_lock` is: before its first section, in the wait of the global lock, or in
the first or the second wait of a lock per epoch. -/
inductive Phase where
  | start
  | waitGlobal
  | waitFirst
  | waitSecond
  deriving DecidableEq, Repr

inductive Outcome where
  | acquired
  | waits (phase : Phase)
  | overflow
  deriving DecidableEq, Repr

variable [DecidableEq T]

def globalLoop (t : T) (f : FileLockState T) : Outcome × FileLockState T :=
  if f.globalHeld = true ∨ 0 < f.totalEpochHolders then (.waits .waitGlobal, f)
  else (.acquired, { f with
    globalOwner := some t
    globalDepth := 1
    globalHeld := true
    globalPending := false })

def secondLoop (epoch : Int) (f : FileLockState T) : Outcome × FileLockState T :=
  if perEpochHasHolders f epoch = true then (.waits .waitSecond, f)
  else
    match perEpochAdd f epoch with
    | some f' => (.acquired, f')
    | none => (.overflow, f)

/-- The next section of a call: from its phase until it waits or returns. -/
def lockSection (t : T) (epoch : Int) (phase : Phase) (f : FileLockState T) :
    Outcome × FileLockState T :=
  if epoch = 0 then
    match phase with
    | .start =>
      if 0 < f.globalDepth ∧ f.globalOwner = some t then
        (.acquired, { f with globalDepth := f.globalDepth + 1, globalPending := false })
      else globalLoop t { f with globalPending := true }
    | _ => globalLoop t f
  else
    match phase with
    | .waitSecond => secondLoop epoch f
    | _ =>
      if f.globalHeld = true ∨ f.globalPending = true then (.waits .waitFirst, f)
      else secondLoop epoch f

/-! ## The system -/

/-- A call of `vfs_lock` that has not returned. -/
structure Request (T : Type) where
  thread : T
  key : Int
  epoch : Int
  phase : Phase
  deriving DecidableEq

/-- A call of `vfs_lock` that returned `VFS_OK` and was not undone by `vfs_unlock`. -/
structure Hold (T : Type) where
  thread : T
  key : Int
  epoch : Int
  deriving DecidableEq

structure System (T : Type) where
  table : Int → Option (FileLockState T)
  requests : List (Request T)
  held : List (Hold T)

def System.init : System T := ⟨fun _ => none, [], []⟩

inductive Event (T : Type) where
  /-- `filelock_find_or_create` of a new call. -/
  | enter (t : T) (key epoch : Int)
  /-- The next section of the call of a thread. -/
  | resume (r : Request T)
  | unlock (t : T) (key epoch : Int)

/-- `filelock_find_or_create`. -/
def findOrCreate (f : Option (FileLockState T)) : FileLockState T :=
  match f with
  | some f => { f with refcount := f.refcount + 1 }
  | none => .new

/-- `filelock_release`: the entry goes with its last reference. -/
def releaseRef (f : FileLockState T) : Option (FileLockState T) :=
  if f.refcount - 1 = 0 then none else some { f with refcount := f.refcount - 1 }

/-- The part of `vfs_unlock` under the lock's mutex; `none` if the thread does not hold it. -/
def unlockSection (t : T) (epoch : Int) (f : FileLockState T) : Option (FileLockState T) :=
  if epoch = 0 then
    if f.globalDepth = 0 ∨ f.globalOwner ≠ some t then none
    else if f.globalDepth - 1 = 0 then
      some { f with globalDepth := 0, globalOwner := none, globalHeld := false }
    else some { f with globalDepth := f.globalDepth - 1 }
  else perEpochRemove f epoch

def resumeRequest (s : System T) (r : Request T) : System T :=
  match s.table r.key with
  | none => s
  | some f =>
    let result := lockSection r.thread r.epoch r.phase f
    let table := Function.update s.table r.key (some result.2)
    match result.1 with
    | .acquired => ⟨table, s.requests.erase r, ⟨r.thread, r.key, r.epoch⟩ :: s.held⟩
    | .waits phase => ⟨table, { r with phase := phase } :: s.requests.erase r, s.held⟩
    | .overflow => ⟨table, s.requests.erase r, s.held⟩

def step (s : System T) : Event T → System T
  | .enter t key epoch =>
    { s with
      table := Function.update s.table key (some (findOrCreate (s.table key)))
      requests := ⟨t, key, epoch, .start⟩ :: s.requests }
  | .resume r => resumeRequest s r
  | .unlock t key epoch =>
    match (s.table key).bind (unlockSection t epoch) with
    | none => s
    | some f =>
      { s with
        table := Function.update s.table key (releaseRef f)
        held := s.held.erase ⟨t, key, epoch⟩ }

def Enabled (s : System T) : Event T → Prop
  | .enter t _ _ => ∀ r ∈ s.requests, r.thread ≠ t
  | .resume r => r ∈ s.requests
  | .unlock t key epoch => (∀ r ∈ s.requests, r.thread ≠ t) ∧ ⟨t, key, epoch⟩ ∈ s.held

instance Enabled.decidable (s : System T) : (ev : Event T) → Decidable (Enabled s ev)
  | .enter t _ _ => inferInstanceAs (Decidable (∀ r ∈ s.requests, r.thread ≠ t))
  | .resume r => inferInstanceAs (Decidable (r ∈ s.requests))
  | .unlock t key epoch => inferInstanceAs
      (Decidable ((∀ r ∈ s.requests, r.thread ≠ t) ∧ (⟨t, key, epoch⟩ : Hold T) ∈ s.held))

/-! ## Exclusion -/

def EpochExclusive (s : System T) : Prop :=
  ∀ key epoch t u, epoch ≠ 0 → ⟨t, key, epoch⟩ ∈ s.held → ⟨u, key, epoch⟩ ∈ s.held → t = u

def GlobalExclusive (s : System T) : Prop :=
  ∀ key epoch t u, ⟨t, key, 0⟩ ∈ s.held → ⟨u, key, epoch⟩ ∈ s.held → t = u

/-- A section of a global request does not run while a request per epoch on its key is in the second
wait. -/
def NoneWaitsSecond (s : System T) : Event T → Prop
  | .resume r => r.epoch = 0 → ∀ q ∈ s.requests, q.key = r.key → q.phase ≠ .waitSecond
  | _ => True

instance NoneWaitsSecond.decidable (s : System T) : (ev : Event T) → Decidable (NoneWaitsSecond s ev)
  | .enter _ _ _ => isTrue trivial
  | .resume r => inferInstanceAs
      (Decidable (r.epoch = 0 → ∀ q ∈ s.requests, q.key = r.key → q.phase ≠ .waitSecond))
  | .unlock _ _ _ => isTrue trivial

end Lock
end SphereVFS
