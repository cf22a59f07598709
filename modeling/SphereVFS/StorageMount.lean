import SphereVFS.StorageRefine

/-!
# SphereVFS.StorageMount

Closing a file and reading its table (`storage.c`, `indirection.c`).

`storage_close` flushes and forgets the rest. `storage_open` takes the header page from the start of the
file and follows the overflow pages from there: each of them is looked up in the table as far as it was
read, and its own record is read as it is, without its sibling and without a checksum.
-/

namespace SphereVFS
namespace Storage

open Mirror

section Open

variable (crc : Words → UInt32)

/-! ## The header page -/

/-- `mount_existing`: the payload of the header page. -/
def mountExisting (d : Disk Words) : Option Words :=
  match d.hdr 0, d.pay 0 with
  | some ph, some w =>
    if ph.flags ≠ xvfsMagic then none
    else if w 1 < 512 ∨ 65536 < w 1 then none
    else if crc w ≠ ph.checksum then none
    else some w
  | _, _ => none

/-! ## The indirection table -/

/-- `indir_lookup` in the table of a header page and the overflow pages read so far, each with its logical
page. -/
def lookupIn (header : Words) (overflow : List (Nat × Words)) (page : Nat) : Nat :=
  if page < inlineEntryCount (header 1) then header (12 + page)
  else
    let remaining := page - inlineEntryCount (header 1)
    match overflow[remaining / entriesPerOverflow (header 1)]? with
    | none => 0
    | some (_, w) => w (1 + remaining % entriesPerOverflow (header 1))

/-- The loop of `indir_init`, from `page` on. -/
def loadOverflow (d : Disk Words) (header : Words) : Nat → Nat → List (Nat × Words) → List (Nat × Words)
  | 0, _, overflow => overflow
  | n + 1, page, overflow =>
    if page = 0 then overflow
    else
      let offset := lookupIn header overflow page
      if offset = 0 then overflow
      else
        match d.hdr offset, d.pay offset with
        | some _, some w => loadOverflow d header n (w 0) (overflow ++ [(page, w)])
        | _, _ => overflow

/-- `indir_init`: the overflow pages. There are no more of them than bytes in the file. -/
def indirInit (d : Disk Words) (header : Words) : List (Nat × Words) :=
  loadOverflow d header (header 3) (header 4) []

def mounted (d : Disk Words) (header : Words) : Backend :=
  let overflow := indirInit d header
  { pageSize := header 1
    disk := d
    totalPages := header 0
    physicalTail := header 3
    entries := lookupIn header overflow
    overflowCount := overflow.length
    freeListHead := header 5
    freeListTail := header 6
    freeListCount := header 7
    binHead := header 8
    binTail := header 9
    binCount := header 10
    cached := []
    cache := fun _ => none }

/-- `storage_close`: what is left is the file. -/
def storageClose (b : Backend) : Disk Words := (storageFlush crc b).disk

end Open

/-- `indir_ensure_capacity`. -/
def indirEnsureCapacityFor (b : Backend) (needed : Int) : Backend :=
  let required := (b.totalPages + needed).toNat
  growTable required (required + 1) b

/-! ## Reading the table back -/

structure TableStored (crc : Words → UInt32) (b : Backend) (d : Disk Words) : Prop where
  header : ∃ ph, d.hdr 0 = some ph ∧ ph.flags = xvfsMagic ∧ ph.checksum = crc (headerImage b)
  payload : d.pay 0 = some (headerImage b)
  overflow : ∀ i < b.overflowCount, (d.hdr (b.entries (overflowLogical b.pageSize i))).isSome ∧
    d.pay (b.entries (overflowLogical b.pageSize i)) = some (overflowImage i b)

/-- The first `k` overflow pages. -/
def overflowPages (b : Backend) (k : Nat) : List (Nat × Words) :=
  (List.range k).map fun i => (overflowLogical b.pageSize i, overflowImage i b)

/-- The logical page of overflow page `k`, `0` if there is none. -/
def overflowLink (b : Backend) (k : Nat) : Nat :=
  if k < b.overflowCount then overflowLogical b.pageSize k else 0

section Load

variable {crc : Words → UInt32} {b : Backend} {d : Disk Words} {k p : Nat}

theorem headerImage_entry (b : Backend) (hp : p < inlineEntryCount b.pageSize) :
    headerImage b (12 + p) = b.entries p := by
  rw [Nat.add_comm]
  exact if_pos hp

theorem lookupIn_overflowPages (hsize : 120 ≤ b.pageSize) :
    lookupIn (headerImage b) (overflowPages b k) p =
      if p < inlineEntryCount b.pageSize + k * entriesPerOverflow b.pageSize then b.entries p else 0 := by
  have hps : headerImage b 1 = b.pageSize := rfl
  have hepo : 0 < entriesPerOverflow b.pageSize := by
    have := entriesPerOverflow_large hsize
    omega
  rw [lookupIn, hps]
  by_cases hp : p < inlineEntryCount b.pageSize
  · rw [if_pos hp, headerImage_entry b hp, if_pos (by omega)]
  rw [if_neg hp]
  -- page p is entry r of overflow page i
  set i := (p - inlineEntryCount b.pageSize) / entriesPerOverflow b.pageSize
  set r := (p - inlineEntryCount b.pageSize) % entriesPerOverflow b.pageSize
  have hr : r < entriesPerOverflow b.pageSize := Nat.mod_lt _ hepo
  have hdiv : i * entriesPerOverflow b.pageSize + r = p - inlineEntryCount b.pageSize := Nat.div_add_mod' ..
  show (match (overflowPages b k)[i]? with
    | none => 0
    | some (_, w) => w (1 + r)) = _
  by_cases hi : i < k
  · have hget : (overflowPages b k)[i]? = some (overflowLogical b.pageSize i, overflowImage i b) := by
      simp [overflowPages, hi]
    have hlt : i * entriesPerOverflow b.pageSize + entriesPerOverflow b.pageSize ≤
        k * entriesPerOverflow b.pageSize := by
      rw [← Nat.succ_mul]
      exact Nat.mul_le_mul_right _ hi
    have hentry : inlineEntryCount b.pageSize + i * entriesPerOverflow b.pageSize + (1 + r - 1) = p := by omega
    rw [hget]
    show overflowImage i b (1 + r) = _
    rw [overflowImage, if_neg (by omega), if_pos (by omega), hentry, if_pos (by omega)]
  · have hget : (overflowPages b k)[i]? = none := by simp [overflowPages, Nat.le_of_not_lt hi]
    have hle : k * entriesPerOverflow b.pageSize ≤ i * entriesPerOverflow b.pageSize :=
      Nat.mul_le_mul_right _ (Nat.le_of_not_lt hi)
    rw [hget, if_neg (by omega)]

theorem loadOverflow_stored (hsize : 120 ≤ b.pageSize) (hd : TableStored crc b d)
    (hlive : ∀ i < b.overflowCount, b.entries (overflowLogical b.pageSize i) ≠ 0) (n : Nat) :
    ∀ k, k ≤ b.overflowCount → b.overflowCount ≤ n + k →
      loadOverflow d (headerImage b) n (overflowLink b k) (overflowPages b k) =
        overflowPages b b.overflowCount := by
  induction n with
  | zero =>
    intro k hk hn
    rw [loadOverflow, Nat.le_antisymm hk (by omega)]
  | succ n ih =>
    intro k hk hn
    rw [loadOverflow]
    by_cases hlt : k < b.overflowCount
    · have hne : overflowLink b k ≠ 0 := by
        have := inlineEntryCount_large hsize
        rw [overflowLink, if_pos hlt, overflowLogical]
        omega
      have hlast := overflowLogical_last hsize k
      have hoff : lookupIn (headerImage b) (overflowPages b k) (overflowLink b k) =
          b.entries (overflowLogical b.pageSize k) := by
        rw [lookupIn_overflowPages hsize, overflowLink, if_pos hlt, if_pos (by omega)]
      obtain ⟨hhdr, hpay⟩ := hd.overflow k hlt
      obtain ⟨ph, hph⟩ := Option.isSome_iff_exists.1 hhdr
      have hnext : overflowImage k b 0 = overflowLink b (k + 1) := rfl
      have happend : overflowPages b k ++ [(overflowLink b k, overflowImage k b)] = overflowPages b (k + 1) := by
        rw [overflowPages, overflowPages, List.range_succ, List.map_append, overflowLink, if_pos hlt]
        rfl
      simp only [if_neg hne, hoff, if_neg (hlive k hlt), hph, hpay, hnext, happend]
      exact ih (k + 1) hlt (by omega)
    · have hlink : overflowLink b k = 0 := if_neg hlt
      rw [if_pos hlink, Nat.le_antisymm hk (Nat.le_of_not_lt hlt)]

theorem mountExisting_stored (hd : TableStored crc b d) (hmin : 512 ≤ b.pageSize)
    (hmax : b.pageSize ≤ 65536) : mountExisting crc d = some (headerImage b) := by
  obtain ⟨ph, hph, hmagic, hsum⟩ := hd.header
  have hps : headerImage b 1 = b.pageSize := rfl
  have hrange : ¬ (headerImage b 1 < 512 ∨ 65536 < headerImage b 1) := by omega
  simp only [mountExisting, hph, hd.payload, hmagic, ne_eq, not_true_eq_false, if_false, if_neg hrange, hsum]

theorem mounted_stored (hsize : 120 ≤ b.pageSize) (hd : TableStored crc b d)
    (hlive : ∀ i < b.overflowCount, b.entries (overflowLogical b.pageSize i) ≠ 0)
    (hcount : b.overflowCount ≤ b.physicalTail) :
    indirInit d (headerImage b) = overflowPages b b.overflowCount ∧
    mounted d (headerImage b) = { b with
      disk := d
      entries := fun p => if p < totalEntries b then b.entries p else 0
      cached := []
      cache := fun _ => none } := by
  have hinit : indirInit d (headerImage b) = overflowPages b b.overflowCount := by
    have hhead : headerImage b 4 = overflowLink b 0 := by
      rw [overflowLink]
      show indirectionHead b = _
      rw [indirectionHead]
      by_cases h0 : b.overflowCount = 0
      · simp [h0]
      · rw [if_neg h0, if_pos (Nat.pos_of_ne_zero h0)]
    rw [indirInit, hhead]
    exact loadOverflow_stored hsize hd hlive _ 0 (Nat.zero_le _) hcount
  refine ⟨hinit, ?_⟩
  have hentries : lookupIn (headerImage b) (overflowPages b b.overflowCount) =
      fun p => if p < totalEntries b then b.entries p else 0 := by
    funext p
    exact lookupIn_overflowPages hsize
  have hlength : (overflowPages b b.overflowCount).length = b.overflowCount := by simp [overflowPages]
  simp only [mounted, hinit, hentries, hlength]
  rfl

end Load

end Storage
end SphereVFS
