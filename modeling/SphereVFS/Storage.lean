import SphereVFS.Mirror
import Mathlib.Data.List.Sort

/-!
# SphereVFS.Storage

The storage backend (`storage.c`, `indirection.c`, `page_cache.c`): logical pages over the page
records of the backing file, through a write-back cache.

The indirection table maps a logical page to the offset of its record, `0` for none. Its entries are
in the header page and, from there on, in a chain of overflow pages; the entry of an overflow page
itself is the last one before its range. Freed pages go to a queue that is kept in pages of its own,
read and written through the cache like any other page. Writes stay in the cache until a flush,
which hands every dirty page to `mirror_write`; that may take a page from the allocator for a
sibling.

A page is taken as its 8-byte words. Records of the file are told apart by their offsets. The batch
eviction that starts when the cache is full is left out: `cache_evict_batch` takes entries out of a
bucket through links it noted before, which may be in entries that it took out and freed since.
-/

namespace SphereVFS
namespace Storage

/-- A page payload by its 8-byte words. -/
abbrev Words := Nat → Nat

/-- `FLUSH_PRIO_*`, in flush order. -/
inductive Priority where
  | data
  | pool
  | indir
  | superblock
  deriving DecidableEq, Repr

def Priority.flags : Priority → Nat
  | .data => 0
  | .pool => 1
  | .indir => 2
  | .superblock => 3

/-- `CacheEntry` without its list links and timestamp. -/
structure CacheEntry where
  payload : Words
  priority : Priority
  dirty : Bool

/-- `StorageBackend` with its indirection table and cache. -/
structure Backend where
  pageSize : Nat
  disk : Disk Words
  totalPages : Nat
  physicalTail : Nat
  /-- All indirection entries, the inline ones and then those of the overflow pages. -/
  entries : Nat → Nat
  overflowCount : Nat
  freeListHead : Nat
  freeListTail : Nat
  freeListCount : Nat
  binHead : Nat
  binTail : Nat
  binCount : Nat
  /-- The pages in the cache, the newest first. -/
  cached : List Nat
  cache : Nat → Option CacheEntry

variable (crc : Words → UInt32)

/-! ## Geometry -/

def pageHeaderSize : Nat := 16

def physRecordSize (b : Backend) : Nat := b.pageSize + pageHeaderSize

def hdrOffEntries : Nat := 96

def inlineEntryCount (pageSize : Nat) : Nat := (pageSize - hdrOffEntries) / 8

def entriesPerOverflow (pageSize : Nat) : Nat := pageSize / 8 - 1

def freeListMaxPerPage (b : Backend) : Nat := (b.pageSize - 16) / 16

/-- The number of entries the table has room for. -/
def totalEntries (b : Backend) : Nat :=
  inlineEntryCount b.pageSize + b.overflowCount * entriesPerOverflow b.pageSize

/-- The logical page of overflow page `i`: the last entry before its own range. -/
def overflowLogical (pageSize i : Nat) : Nat :=
  inlineEntryCount pageSize - 1 + i * entriesPerOverflow pageSize

/-! ## The cache -/

def cacheInsert (b : Backend) (page : Nat) (payload : Words) (priority : Priority) (dirty : Bool) :
    Backend :=
  match b.cache page with
  | some e =>
    { b with cache := Function.update b.cache page (some ⟨payload, priority, e.dirty || dirty⟩) }
  | none =>
    { b with
      cached := page :: b.cached
      cache := Function.update b.cache page (some ⟨payload, priority, dirty⟩) }

def cacheInvalidate (b : Backend) (page : Nat) : Backend :=
  { b with
    cached := b.cached.erase page
    cache := Function.update b.cache page none }

def cacheModify (b : Backend) (page : Nat) (f : CacheEntry → CacheEntry) : Backend :=
  { b with cache := Function.update b.cache page ((b.cache page).map f) }

def cacheMarkDirty (b : Backend) (page : Nat) (priority : Priority) : Backend :=
  cacheModify b page fun e => { e with dirty := true, priority := priority }

/-! ## The indirection table -/

def indirLookup (b : Backend) (page : Int) : Nat :=
  if page < 0 then 0
  else if page.toNat < totalEntries b then b.entries page.toNat
  else 0

/-- `indir_set`: the page that holds the entry is marked dirty, should it be cached. -/
def indirSet (b : Backend) (page offset : Nat) : Backend :=
  if page < inlineEntryCount b.pageSize then
    cacheMarkDirty { b with entries := Function.update b.entries page offset } 0 .superblock
  else if page < totalEntries b then
    cacheMarkDirty { b with entries := Function.update b.entries page offset }
      (overflowLogical b.pageSize
        ((page - inlineEntryCount b.pageSize) / entriesPerOverflow b.pageSize)) .indir
  else b

def tryClaimEntry (b : Backend) (page offset : Nat) : Option Backend :=
  if indirLookup b page ≠ 0 then none
  else if page < totalEntries b then
    some { b with entries := Function.update b.entries page offset }
  else none

/-- One more overflow page, at the next free record: its own entry is set, those of its range are
empty. -/
def addOverflow (b : Backend) : Backend :=
  { b with
    physicalTail := b.physicalTail + physRecordSize b
    entries := fun p =>
      if p = overflowLogical b.pageSize b.overflowCount then b.physicalTail
      else if totalEntries b ≤ p then 0
      else b.entries p
    overflowCount := b.overflowCount + 1 }

/-- The loop of `indir_ensure_capacity`. -/
def growTable (required : Nat) : Nat → Backend → Backend
  | 0, b => b
  | n + 1, b => if totalEntries b ≤ required then growTable required n (addOverflow b) else b

/-- `indir_ensure_capacity` for one more page. Every round of the loop adds at least one entry. -/
def indirEnsureCapacity (b : Backend) : Backend :=
  growTable (b.totalPages + 1) (b.totalPages + 2) b

/-! ## Allocation -/

def needsGrow (b : Backend) : Bool :=
  let page := max b.totalPages 2
  if page < inlineEntryCount b.pageSize then
    page == inlineEntryCount b.pageSize - 1 && b.entries page == 0
  else
    let remaining := page - inlineEntryCount b.pageSize
    decide (b.overflowCount ≤ remaining / entriesPerOverflow b.pageSize) ||
      (remaining % entriesPerOverflow b.pageSize == entriesPerOverflow b.pageSize - 1 &&
        b.entries page == 0)

/-- The claim loop of `storage_allocate_tail_advance`. Entries of overflow pages are passed over. -/
def claimLoop (offset : Nat) : Nat → Backend → Option Nat × Backend
  | 0, b => (none, b)
  | n + 1, b =>
    if needsGrow b then claimLoop offset n (indirEnsureCapacity b)
    else
      let page := max b.totalPages 2
      let b1 := { b with totalPages := page + 1 }
      match tryClaimEntry b1 page offset with
      | some b2 => (some page, b2)
      | none => claimLoop offset n b1

/-- `storage_allocate_tail_advance`. Three rounds are enough: two entries of overflow pages are
never next to each other. -/
def storageAllocateTailAdvance (b : Backend) : Option Nat × Backend :=
  let b1 := indirEnsureCapacity b
  claimLoop b1.physicalTail 3 { b1 with physicalTail := b1.physicalTail + physRecordSize b1 }

/-! ## Reading a page -/

/-- `StorageReadStatus`, with the payload. -/
inductive StorageRead where
  | ok (payload : Words)
  | notFound
  | ioError
  | crcError

def physicalOffset (b : Backend) (page : Nat) : Nat :=
  if page = 0 then 0 else if page = 1 then physRecordSize b else indirLookup b page

/-- `storage_read_with_status`: the cache first, then the file; what is read is cached. -/
def storageRead (b : Backend) (page : Nat) : StorageRead × Backend :=
  match b.cache page with
  | some e => (.ok e.payload, b)
  | none =>
    if indirLookup b page = 0 then (.notFound, b)
    else
      match Mirror.mirrorRead crc (indirLookup b) b.disk (physicalOffset b page) with
      | .ok w => (.ok w, cacheInsert b page w .data false)
      | .ioError => (.ioError, b)
      | .crcError => (.crcError, b)

def storageWrite (b : Backend) (page : Nat) (payload : Words) (priority : Priority) : Backend :=
  cacheInsert b page payload priority true

/-! ## The free-page queue

A queue page has the next queue page in word `0`, its count in word `1`, and from word `2` on pairs
of a logical page and the offset of its record. -/

/-- `read_free_list_count`; `none` when the page cannot be read. -/
def readFreeListCount (b : Backend) (page : Nat) : Option Nat × Backend :=
  match storageRead crc b page with
  | (.ok w, b1) => (some (w 1), b1)
  | (_, b1) => (none, b1)

def readFreeListNext (b : Backend) (page : Nat) : Nat × Backend :=
  match storageRead crc b page with
  | (.ok w, b1) => (w 0, b1)
  | (_, b1) => (0, b1)

def readFreeListEntry (b : Backend) (page i : Nat) : (Nat × Nat) × Backend :=
  match storageRead crc b page with
  | (.ok w, b1) => ((w (2 + 2 * i), w (3 + 2 * i)), b1)
  | (_, b1) => ((0, 0), b1)

def writeFreeList (b : Backend) (page : Nat) (f : Words → Words) : Backend :=
  match storageRead crc b page with
  | (.ok _, b1) =>
    cacheModify b1 page fun e => { payload := f e.payload, priority := .pool, dirty := true }
  | (_, b1) => b1

def writeFreeListNext (b : Backend) (page next : Nat) : Backend :=
  writeFreeList crc b page fun w => Function.update w 0 next

def writeFreeListCount (b : Backend) (page count : Nat) : Backend :=
  writeFreeList crc b page fun w => Function.update w 1 count

def writeFreeListEntry (b : Backend) (page i logical offset : Nat) : Backend :=
  writeFreeList crc b page fun w =>
    Function.update (Function.update w (2 + 2 * i) logical) (3 + 2 * i) offset

/-- The head page is drained: the queue goes on with the next one, and the page loses its entry. -/
def advanceHead (b : Backend) (head : Nat) : Backend :=
  let (next, b1) := readFreeListNext crc b head
  indirSet { b1 with freeListHead := next } head 0

def claimPopped (b : Backend) (page offset : Nat) : Option Nat × Backend :=
  let b1 := cacheInvalidate b page
  let b2 := { b1 with freeListCount := b1.freeListCount - 1 }
  match tryClaimEntry b2 page offset with
  | none => (none, b2)
  | some b3 => (some page, b3)

/-- The end of `dequeue_from_free_list`, once entry `i` of the head page is taken: its count goes
down in the cached payload, which is not marked dirty. -/
def popEntry (b : Backend) (head i page offset : Nat) : Option Nat × Backend :=
  let b1 := cacheModify b head fun e => { e with payload := Function.update e.payload 1 i }
  claimPopped (if i = 0 then advanceHead crc b1 head else b1) page offset

/-- `dequeue_from_free_list`, with the retries that are left; `none` where it returns `0`. -/
def dequeueFromFreeList : Nat → Backend → Option Nat × Backend
  | 0, b => (none, b)
  | retries + 1, b =>
    if b.freeListCount = 0 ∨ b.freeListHead = 0 then (none, b)
    else
      match readFreeListCount crc b b.freeListHead with
      | (none, b1) => (none, b1)
      | (some 0, b1) => dequeueFromFreeList retries (advanceHead crc b1 b.freeListHead)
      | (some (i + 1), b1) =>
        let ((page, offset), b2) := readFreeListEntry crc b1 b.freeListHead i
        if page = 0 then (none, b2)
        else
          match storageRead crc b2 b.freeListHead with
          | (.ok _, b3) => popEntry crc b3 b.freeListHead i page offset
          | (_, b3) => (none, b3)

/-- `storage_allocate(1)`: the queue first, then the tail. -/
def storageAllocate (b : Backend) : Option Nat × Backend :=
  match dequeueFromFreeList crc 1000 b with
  | (some page, b1) => (some page, b1)
  | (none, b1) => storageAllocateTailAdvance b1

/-- `alloc_free_list_page`: a new queue page with one entry. -/
def allocFreeListPage (b : Backend) (logical offset : Nat) : Option Nat × Backend :=
  match storageAllocateTailAdvance b with
  | (none, b1) => (none, b1)
  | (some page, b1) =>
    let b2 := cacheInsert b1 page (fun _ => 0) .pool true
    let b3 := writeFreeListCount crc (writeFreeListNext crc b2 page 0) page 1
    (some page, writeFreeListEntry crc b3 page 0 logical offset)

/-- The last lines of `enqueue_free_page`. -/
def setQueueTail (b : Backend) (tail : Nat) : Backend :=
  { b with
    freeListTail := tail
    freeListHead := if b.freeListHead = 0 then tail else b.freeListHead
    freeListCount := b.freeListCount + 1 }

def enqueueFreePage (b : Backend) (logical offset : Nat) : Backend :=
  let tail := b.freeListTail
  let (tailCount, b1) := if tail = 0 then (none, b) else readFreeListCount crc b tail
  match tailCount with
  | some count =>
    if count < freeListMaxPerPage b then
      let b2 := writeFreeListEntry crc b1 tail count logical offset
      setQueueTail (writeFreeListCount crc b2 tail (count + 1)) tail
    else newTail b1 tail
  | none => newTail b1 tail
where
  /-- A new tail page, linked from the old one if there was any. -/
  newTail (b : Backend) (tail : Nat) : Backend :=
    match allocFreeListPage crc b logical offset with
    | (none, b1) => b1
    | (some page, b1) =>
      setQueueTail (if tail = 0 then b1 else writeFreeListNext crc b1 tail page) page

def storageFree (b : Backend) (page : Nat) : Backend :=
  if page < 2 then b
  else if indirLookup b page = 0 then b
  else enqueueFreePage crc (cacheInvalidate (indirSet b page 0) page) page (indirLookup b page)

/-! ## Flushing -/

/-- `mirror_write` of `page`. `payload` reads the buffer the caller passes: the checksum is taken
before a sibling is allocated and the bytes are written after, and the allocation may change a
buffer of the backend in between. -/
def mirrorWrite (b : Backend) (page : Nat) (payload : Backend → Words) (flags : Nat) :
    Bool × Backend :=
  let offset := physicalOffset b page
  let ph := Mirror.currentHeader b.disk offset
  let (sibling, b1) :=
    if ph.generation ≠ 0 ∧ ph.mirrorPage = -1 then storageAllocate crc b else (none, b)
  let sibling : Int := match sibling with
    | some s => s
    | none => -1
  match Mirror.mirrorWrites (fun _ => crc (payload b)) (indirLookup b1) b1.disk page offset flags
      (payload b1) sibling with
  | none => (false, b1)
  | some ws => (true, { b1 with disk := b1.disk.applyAll ws })

def cachedPayload (page : Nat) (b : Backend) : Words :=
  match b.cache page with
  | some e => e.payload
  | none => fun _ => 0

/-- One page of a flush round. It is skipped when it was dropped, flushed or given another priority
meanwhile. -/
def flushPage (priority : Priority) (b : Backend) (page : Nat) : Backend :=
  match b.cache page with
  | none => b
  | some e =>
    if ¬ e.dirty ∨ e.priority ≠ priority then b
    else
      match mirrorWrite crc b page (cachedPayload page) priority.flags with
      | (true, b1) => cacheModify b1 page fun e => { e with dirty := false }
      | (false, b1) => b1

def hashPage (page : Nat) : UInt64 :=
  let x := UInt64.ofNat page
  let x := (x ^^^ (x >>> 30)) * 0xBF58476D1CE4E5B9
  let x := (x ^^^ (x >>> 27)) * 0x94D049BB133111EB
  x ^^^ (x >>> 31)

/-- `bucket_index`, with `CACHE_DEFAULT_BUCKETS` buckets. -/
def bucketIndex (page : Nat) : Nat := (hashPage page).toNat % 16384

/-- The pages a round collects: by bucket, and within a bucket the newest first. -/
def dirtyPages (b : Backend) (priority : Priority) : List Nat :=
  (b.cached.filter fun p =>
    match b.cache p with
    | some e => e.dirty && e.priority == priority && indirLookup b p != 0
    | none => false).insertionSort fun p q => bucketIndex p ≤ bucketIndex q

/-- One round of `cache_flush_all`. -/
def flushRound (b : Backend) (priority : Priority) : Backend :=
  (dirtyPages b priority).foldl (flushPage crc priority) b

def cacheFlushAll (b : Backend) : Backend :=
  [.data, .pool, .indir, .superblock].foldl (flushRound crc) b

def cacheEvictAll (b : Backend) : Backend :=
  { cacheFlushAll crc b with
    cached := []
    cache := fun _ => none }

/-- The buffer of overflow page `i`: the next overflow page in word `0`, then its entries. -/
def overflowImage (i : Nat) (b : Backend) : Words := fun k =>
  if k = 0 then if i + 1 < b.overflowCount then overflowLogical b.pageSize (i + 1) else 0
  else if k ≤ entriesPerOverflow b.pageSize then
    b.entries (inlineEntryCount b.pageSize + i * entriesPerOverflow b.pageSize + (k - 1))
  else 0

/-- The overflow loop of `storage_flush`, from page `i` on. A sibling taken on the way may add an
overflow page. -/
def flushOverflow : Nat → Nat → Backend → Backend
  | 0, _, b => b
  | n + 1, i, b =>
    if i < b.overflowCount then
      flushOverflow n (i + 1) (mirrorWrite crc b (overflowLogical b.pageSize i) (overflowImage i)
        Priority.indir.flags).2
    else b

def xvfsMagic : Nat := 0x56585346

def indirectionHead (b : Backend) : Nat :=
  if b.overflowCount = 0 then 0 else overflowLogical b.pageSize 0

def headerImage (b : Backend) : Words
  | 0 => b.totalPages
  | 1 => b.pageSize
  | 2 => 1024
  | 3 => b.physicalTail
  | 4 => indirectionHead b
  | 5 => b.freeListHead
  | 6 => b.freeListTail
  | 7 => b.freeListCount
  | 8 => b.binHead
  | 9 => b.binTail
  | 10 => b.binCount
  | 11 => 0
  | k + 12 => if k < inlineEntryCount b.pageSize then b.entries k else 0

/-- The two `pwrite`s of the header page, which is not mirrored. -/
def headerWrites (b : Backend) : List (PWrite Words) :=
  match b.disk.hdr 0 with
  | none => []
  | some ph =>
    writePageRecord 0 { ph with
      flags := xvfsMagic
      checksum := crc (headerImage b)
      generation := succ32 ph.generation } (headerImage b)

/-- `storage_flush(-1)`. -/
def storageFlush (b : Backend) : Backend :=
  let b1 := cacheFlushAll crc b
  let b2 := flushOverflow crc (2 * b1.overflowCount + 1) 0 b1
  { b2 with disk := b2.disk.applyAll (headerWrites crc b2) }

/-! ## A new file -/

/-- `bootstrap_new` with the empty table and cache of `storage_open`. -/
def bootstrapNew (pageSize : Nat) : Backend :=
  let b : Backend :=
    { pageSize := pageSize
      disk := Disk.empty
      totalPages := 2
      physicalTail := 2 * (pageSize + pageHeaderSize)
      entries := Function.update (fun _ => 0) 1 (pageSize + pageHeaderSize)
      overflowCount := 0
      freeListHead := 0
      freeListTail := 0
      freeListCount := 0
      binHead := 0
      binTail := 0
      binCount := 0
      cached := []
      cache := fun _ => none }
  { b with
    disk := b.disk.applyAll
      (writePageRecord 0 ⟨xvfsMagic, crc (headerImage b), 1, -1⟩ (headerImage b) ++
        writePageRecord (physRecordSize b) ⟨0, crc fun _ => 0, 0, -1⟩ fun _ => 0) }

/-! ## Runs -/

inductive Call where
  | allocate
  | write (page : Nat) (payload : Words) (priority : Priority)
  | free (page : Nat)
  | flush
  | evictAll
  | read (page : Nat)

/-- The backend, and what its client knows: the pages it has, each with the payload it wrote last
since it got the page. -/
structure Session where
  backend : Backend
  pages : Nat → Option (Option Words)

def step (s : Session) : Call → Session
  | .allocate =>
    match storageAllocate crc s.backend with
    | (some page, b) => ⟨b, Function.update s.pages page (some none)⟩
    | (none, b) => ⟨b, s.pages⟩
  | .write page payload priority =>
    ⟨storageWrite s.backend page payload priority, Function.update s.pages page (some (some payload))⟩
  | .free page => ⟨storageFree crc s.backend page, Function.update s.pages page none⟩
  | .flush => ⟨storageFlush crc s.backend, s.pages⟩
  | .evictAll => ⟨cacheEvictAll crc s.backend, s.pages⟩
  | .read page => ⟨(storageRead crc s.backend page).2, s.pages⟩

def newSession (pageSize : Nat) : Session :=
  ⟨bootstrapNew crc pageSize, Function.update (fun _ => none) 1 (some none)⟩

def run (s : Session) (calls : List Call) : Session := calls.foldl (step crc) s

end Storage
end SphereVFS
