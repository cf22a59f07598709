import SphereVFS.Disk
import SphereVFS.WriteRead
import SphereVFS.FileSteps

/-!
# SphereVFS.ByteCounts

`vfs_read` and `vfs_write` in the integers they compute with: offsets, counts and sizes are `int64_t`,
and the result is an `int`.

The sums `offset + count` and `offset + count - 1` wrap around at `2 ^ 63`, and the result is cut to 32
bits. Offsets, counts and sizes themselves are given as integers in the range of their type.
-/

namespace SphereVFS

variable {st st' st'' : State} {file : VPtr} {f : FileNode} {epoch : Int}

/-! ## What the page loops return -/

section Range

variable {pageSize : Nat} {offset count : Nat}

end Range

/-! ## The calls -/

section Calls

variable {offset count size : Nat}

end Calls

end SphereVFS
