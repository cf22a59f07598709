import SphereVFS.Disk

/-!
# SphereVFS.Mirror

`lazy_mirror.c`: reading and writing one logical page through its physical record and, from the
second write on, a mirror sibling.

All state is on disk. `mirrorWrites` is the list of `pwrite`s a call issues, computed from what it
reads first; a call that is cut short has issued a prefix of that list. `indir` is the indirection
table as `indir_lookup` reads it (`0` for a page without an entry), and `sibling` is what
`storage_allocate` returns when the call needs a sibling.
-/

namespace SphereVFS

variable {P : Type}

/-- Return values of `mirror_read_with_status`: `0`, `-1` and `-2`. -/
inductive ReadStatus (P : Type) where
  | ok (p : P)
  | ioError
  | crcError
  deriving DecidableEq, Repr

namespace Mirror

section Code

variable (crc : P → UInt32) (indir : Int → Nat)

/-- The payload at `off` if it can be read and matches the checksum of `ph`. -/
def checkedPayload (d : Disk P) (off : Nat) (ph : PageHeader) : Option P :=
  match d.pay off with
  | some p => if crc p = ph.checksum then some p else none
  | none => none

/-- The single-copy read: a short `pread` is an I/O error, a bad checksum a CRC error. -/
def readSingle (d : Disk P) (off : Nat) (ph : PageHeader) : ReadStatus P :=
  match d.pay off with
  | some p => if crc p = ph.checksum then .ok p else .crcError
  | none => .ioError

/-- The mirrored read: the half with the higher generation (the sibling only if strictly higher),
then the other one. -/
def readPair (d : Disk P) (off sibOff : Nat) (ph phSib : PageHeader) : ReadStatus P :=
  let active := if phSib.generation > ph.generation then (sibOff, phSib) else (off, ph)
  let other := if active.1 = off then (sibOff, phSib) else (off, ph)
  match checkedPayload crc d active.1 active.2 with
  | some p => .ok p
  | none =>
    match checkedPayload crc d other.1 other.2 with
    | some p => .ok p
    | none => .crcError

/-- `mirror_read_with_status` for the page whose physical offset is `off`. -/
def mirrorRead (d : Disk P) (off : Nat) : ReadStatus P :=
  match d.hdr off with
  | none => .ioError
  | some ph =>
    if ph.mirrorPage = -1 then readSingle crc d off ph
    else if indir ph.mirrorPage = 0 then readSingle crc d off ph
    else
      match d.hdr (indir ph.mirrorPage) with
      | none => readSingle crc d off ph
      | some phSib => readPair crc d off (indir ph.mirrorPage) ph phSib

/-- The header `mirror_write` works with: an unreadable one counts as never written. -/
def currentHeader (d : Disk P) (off : Nat) : PageHeader :=
  (d.hdr off).getD ⟨0, 0, 0, -1⟩

/-- The third kind of write: the half with the lower generation (the original on a tie) gets the
next generation. -/
def alternateWrites (off sibOff : Nat) (ph phSib : PageHeader) (flags : Nat) (payload : P) :
    List (PWrite P) :=
  let target := if ph.generation ≤ phSib.generation then (off, ph) else (sibOff, phSib)
  let newGen := succ32 (if ph.generation > phSib.generation then ph.generation else phSib.generation)
  writePageRecord target.1
    { target.2 with flags := flags, checksum := crc payload, generation := newGen } payload

/-- The `pwrite`s of `mirror_write` on logical page `page` at offset `off`; `none` when the call
returns `-1` before writing anything. -/
def mirrorWrites (d : Disk P) (page : Int) (off : Nat) (flags : Nat) (payload : P) (sibling : Int) :
    Option (List (PWrite P)) :=
  let ph := currentHeader d off
  if ph.generation = 0 then
    -- first write: a single copy
    some (writePageRecord off ⟨flags, crc payload, 1, -1⟩ payload)
  else if ph.mirrorPage = -1 then
    -- second write: the sibling record, then the link from the original
    if sibling < 0 then none
    else if indir sibling = 0 then none
    else
      some (writePageRecord (indir sibling)
        ⟨flags, crc payload, succ32 ph.generation, toInt32 page⟩ payload ++
        [.link off (toInt32 sibling)])
  else if indir ph.mirrorPage = 0 then none
  else
    match d.hdr (indir ph.mirrorPage) with
    | none => none
    | some phSib => some (alternateWrites crc off (indir ph.mirrorPage) ph phSib flags payload)

end Code

end Mirror
end SphereVFS
