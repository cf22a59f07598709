import Mathlib.Data.List.Basic
import Mathlib.Algebra.Order.Ring.Int
import Mathlib.Tactic.Common

/-!
# SphereVFS.Epoch

Epochs, the epoch mapper and the read rule.

An even epoch is a live head, an odd one a snapshot. A leaf chain (directory entries of one slot,
sizes of a file, versions of a page) is kept newest first, and every entry carries the epoch it was
written at. The mapper remaps committed snapshots: an entry whose row has `traversalApply` counts
at the row's target epoch. `chainWalk` is the read rule shared by the three kinds of chain.
-/

namespace SphereVFS

/-- The C conversion `(uint32_t)e`. -/
def u32 (e : Int) : Int := e % 2 ^ 32

theorem u32_of_range {e : Int} (h0 : 0 ≤ e) (h : e < 2 ^ 32) : u32 e = e := Int.emod_eq_of_lt h0 h

/-- A `MapperEntry` of the pool chain, or a row of the in-memory table. -/
structure MapperRow where
  fromEpoch : Int
  toEpoch : Int
  traversalApply : Bool
  deriving DecidableEq, Repr

/-- `mapper_resolve` on the chain, `mapper_table_resolve` on the table: the first row for the
epoch, else the epoch itself. -/
def resolve (rows : List MapperRow) (e : Int) : Int :=
  match rows.find? (fun r => r.fromEpoch == u32 e) with
  | some r => r.toEpoch
  | none => e

/-- `mapper_traversal_apply` and `mapper_table_traversal_apply`. -/
def traversalApply (rows : List MapperRow) (e : Int) : Bool :=
  match rows.find? (fun r => r.fromEpoch == u32 e) with
  | some r => r.traversalApply
  | none => false

/-- The epoch at which an entry stored at `e` counts. -/
def effEpoch (rows : List MapperRow) (e : Int) : Int :=
  if traversalApply rows e then resolve rows e else e

/-- The read rule for one entry: an exact match, or a committed base below. -/
def applicable (rows : List MapperRow) (readEpoch stored : Int) : Bool :=
  effEpoch rows stored == readEpoch ||
    (decide (effEpoch rows stored < readEpoch) && effEpoch rows stored % 2 == 0)

/-- `vfs_chain_walk`: the first applicable entry of a chain. -/
def chainWalk {α : Type} (epochOf : α → Int) (rows : List MapperRow) (readEpoch : Int)
    (chain : List α) : Option α :=
  chain.find? fun x => applicable rows readEpoch (epochOf x)

/-- The checks of `mapper_insert`: no row shares its source or target with the new one, and none
would chain with it. -/
def mapperClash (row new : MapperRow) : Bool :=
  row.fromEpoch == new.fromEpoch || row.toEpoch == new.toEpoch ||
    row.fromEpoch == new.toEpoch || row.toEpoch == new.fromEpoch

/-- `mapper_insert`: prepends to the chain, `none` for `VFS_ERR_EXISTS`. -/
def mapperInsert (chain : List MapperRow) (new : MapperRow) : Option (List MapperRow) :=
  if chain.any (fun r => mapperClash r new) then none else some (new :: chain)

end SphereVFS
