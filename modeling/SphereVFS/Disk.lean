import Mathlib.Logic.Function.Basic
import Mathlib.Algebra.Order.Ring.Int
import Mathlib.Tactic.Common

/-!
# SphereVFS.Disk

The backing file as the storage backend sees it: page records of a 16-byte `PageHeader` and a
payload, and the three kinds of `pwrite` issued on them.

A record lives at a physical offset. Header and payload are written by two separate `pwrite`s
(`write_page_record`), so a record whose second write never happened keeps its old payload under
a new header. `none` stands for a `pread` that comes back short. A `pwrite` past the end of the file
fills the gap with zeros: `pwrite` has that, `apply` only what is written itself, for callers that
never read a record before they wrote it.
-/

namespace SphereVFS

/-- `PageHeader` (`storage.h`). The three unsigned fields are `uint32_t`, kept below `2 ^ 32` by
the writers; `mirrorPage` is an `int32_t`, `-1` for a page with a single copy. -/
structure PageHeader where
  flags : Nat
  checksum : UInt32
  generation : Nat
  mirrorPage : Int
  deriving DecidableEq, Repr

/-- The C conversion `(int32_t)x`. -/
def toInt32 (x : Int) : Int := Int.bmod x (2 ^ 32)

theorem toInt32_of_lt {x : Int} (h0 : 0 ≤ x) (h : x < 2 ^ 31) : toInt32 x = x := by
  unfold toInt32
  rw [Int.bmod_eq_of_le] <;> omega

/-- The C addition `x + 1` on `uint32_t`. -/
def succ32 (x : Nat) : Nat := (x + 1) % 2 ^ 32

theorem succ32_of_lt {x : Nat} (h : x + 1 < 2 ^ 32) : succ32 x = x + 1 := Nat.mod_eq_of_lt h

/-- Page records by physical offset. -/
structure Disk (P : Type) where
  hdr : Nat → Option PageHeader
  pay : Nat → Option P

/-- One `pwrite` of the storage backend, taken to be atomic. -/
inductive PWrite (P : Type) where
  | header (off : Nat) (ph : PageHeader)
  | payload (off : Nat) (p : P)
  | link (off : Nat) (mirror : Int)

variable {P : Type}

def PWrite.off : PWrite P → Nat
  | .header off _ | .payload off _ | .link off _ => off

namespace Disk

def empty : Disk P := ⟨fun _ => none, fun _ => none⟩

/-- The effect of one `pwrite`. The link write touches only the `mirror_page` field. -/
def apply (d : Disk P) : PWrite P → Disk P
  | .header off ph => { d with hdr := Function.update d.hdr off (some ph) }
  | .payload off p => { d with pay := Function.update d.pay off (some p) }
  | .link off m =>
    { d with hdr := Function.update d.hdr off ((d.hdr off).map fun ph => { ph with mirrorPage := m }) }

def applyAll (d : Disk P) (ws : List (PWrite P)) : Disk P := ws.foldl apply d

/-- The file reaches to `off`: what lies below and was never written reads as zeros. -/
def grow (zero : P) (d : Disk P) (off : Nat) : Disk P where
  hdr s := if s < off then some ((d.hdr s).getD ⟨0, 0, 0, 0⟩) else d.hdr s
  pay s := if s < off then some ((d.pay s).getD zero) else d.pay s

/-- The effect of one `pwrite` on the whole file. -/
def pwrite (zero : P) (d : Disk P) (w : PWrite P) : Disk P := (d.apply w).grow zero w.off

@[simp] theorem applyAll_nil (d : Disk P) : d.applyAll [] = d := rfl

@[simp] theorem applyAll_cons (d : Disk P) (w : PWrite P) (ws : List (PWrite P)) :
    d.applyAll (w :: ws) = (d.apply w).applyAll ws := rfl

theorem apply_present (d : Disk P) (w : PWrite P) {s : Nat} (h : (d.hdr s).isSome) :
    ((d.apply w).hdr s).isSome := by
  cases w with
  | header off ph =>
    by_cases hs : s = off
    · simp [apply, hs]
    · simpa [apply, hs] using h
  | payload off p => exact h
  | link off m =>
    by_cases hs : s = off
    · subst hs
      simpa [apply] using h
    · simpa [apply, hs] using h

theorem applyAll_present (ws : List (PWrite P)) : ∀ {d : Disk P} {s : Nat}, (d.hdr s).isSome →
    ((d.applyAll ws).hdr s).isSome := by
  induction ws with
  | nil => exact fun h => h
  | cons w ws ih => exact fun h => ih (apply_present _ w h)

end Disk

/-- `write_page_record`: the header first, then the payload. -/
def writePageRecord (off : Nat) (ph : PageHeader) (p : P) : List (PWrite P) :=
  [.header off ph, .payload off p]

end SphereVFS
