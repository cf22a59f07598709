import SphereVFS.Lib.Bytes
import SphereVFS.Lib.Linked
import SphereVFS.Lib.Run
import SphereVFS.State
import Mathlib.Data.List.Perm.Subperm

/-!
# SphereVFS.PoolAlloc

The pool allocator (`pool.c`): slots of 32 bytes in pool pages.

The free slots of a page form a list through their own first two bytes. Its first slot and its length
are packed into one word of the page. `pool_free` does not look at the slot it is given, so it is the
caller who keeps free slots from being freed again or written.

The page store is ideal: a page reads as it was written last. Which page `storage_allocate` gives, and
whether `malloc` fails, is part of the call.
-/

namespace SphereVFS
namespace PoolAlloc

open Bytes

/-! ## A pool page -/

/-- `VFS_POOL_FREE_TERMINAL`. -/
def freeTerminal : Nat := 0xFFFF

/-- `POOL_OFF_NEXT`. -/
def offNext : Nat := 0

/-- `POOL_OFF_STATE`. -/
def offState : Nat := 8

/-- `VFS_POOL_SLOTS_FOR_PAGE`, with the cap of `pool_page_init`. -/
def slotCount (pageSize : Nat) : Nat := min ((pageSize - 16) / 32) 65535

/-- The first byte of slot `i`. -/
def slotOffset (i : Nat) : Nat := 16 + i * 32

/-- `pool_state_pack`, of two 16-bit numbers. -/
def poolStatePack (freeCount firstFree : Nat) : Nat :=
  (freeCount % 2 ^ 16) <<< 16 ||| firstFree % 2 ^ 16

def poolStateFreeCount (state : Nat) : Nat := (state >>> 16) % 2 ^ 16

def poolStateFirstFree (state : Nat) : Nat := state &&& 0xFFFF

/-- `VFS_VPTR_MAKE`, `VFS_VPTR_PAGE` and `VFS_VPTR_SLOT`. -/
def vptrMake (page slot : Nat) : Nat := page <<< 16 ||| (slot &&& 0xFFFF)

def vptrPage (vptr : Nat) : Nat := vptr >>> 16

def vptrSlot (vptr : Nat) : Nat := vptr &&& 0xFFFF

/-- The loop of `pool_page_init`: slot `i` is followed by slot `i + 1`. -/
def linkSlots (payload : Buffer) (n : Nat) : Buffer :=
  (List.range n).foldl (fun payload i => put payload (slotOffset i) 2 (i + 1)) payload

def poolPageInit (pageSize : Nat) : Buffer :=
  let n := slotCount pageSize
  let payload := linkSlots (fun _ => 0) (n - 1)
  let payload := put payload (slotOffset (n - 1)) 2 freeTerminal
  let payload := put payload offState 4 (poolStatePack n 0)
  put payload offNext 8 0

/-! ## The pool -/

/-- `Pool` over an ideal page store. -/
structure Pool where
  pageSize : Nat
  /-- The pages written so far, the newest first. -/
  written : List Nat
  page : Nat → Option Buffer
  listHead : Nat
  allocCount : Int

/-- The loop of `pool_list_find_free`; `0` if no page of the list has a free slot. -/
def findFree (pool : Pool) : Nat → Nat → Nat
  | 0, _ => 0
  | n + 1, page =>
    if page = 0 then 0
    else
      match pool.page page with
      | none => 0
      | some payload =>
        if 0 < poolStateFreeCount (get payload offState 4) then page
        else findFree pool n (get payload offNext 8)

/-- `pool_list_find_free`. A list without a cycle has at most the pages that were written. -/
def poolListFindFree (pool : Pool) : Nat := findFree pool (pool.written.length + 1) pool.listHead

/-- `storage_write`: the store keeps a copy. -/
def storageWrite (pool : Pool) (page : Nat) (payload : Buffer) : Pool :=
  { pool with
    written := page :: pool.written
    page := Function.update pool.page page (some payload) }

/-- `pool_list_add`: the link to the old head goes into the buffer of the caller. -/
def poolListAdd (pool : Pool) (page : Nat) (payload : Buffer) : Buffer × Pool :=
  (put payload offNext 8 pool.listHead, { pool with listHead := page })

/-- The new page of `pool_alloc`. The buffer that `pool_list_add` changes is dropped: the store has
its copy already. -/
def newPage (pool : Pool) (page : Nat) : Pool :=
  (poolListAdd (storageWrite pool page (poolPageInit pool.pageSize)) page
    (poolPageInit pool.pageSize)).2

/-- The rest of a round of `pool_alloc`, on a page that should have a free slot: the pointer it
returns, `0` for `VFS_VPTR_NULL`, or `none` when it goes round again. -/
def takeSlot (pool : Pool) (page : Nat) : Option Nat × Pool :=
  match pool.page page with
  | none => (some 0, pool)
  | some payload =>
    let state := get payload offState 4
    if poolStateFreeCount state = 0 then (none, pool)
    else
      let nextFree := get payload (slotOffset (poolStateFirstFree state)) 2
      let payload := put payload offState 4 (poolStatePack (poolStateFreeCount state - 1) nextFree)
      (some (vptrMake page (poolStateFirstFree state)),
        { pool with
          page := Function.update pool.page page (some payload)
          allocCount := pool.allocCount + 1 })

/-- A round of `pool_alloc`. `grant` is the page `storage_allocate` gives, `none` when it fails, and
`malloc` tells whether `malloc` succeeds. -/
def poolAlloc (pool : Pool) (grant : Option Nat) (malloc : Bool) : Option Nat × Pool :=
  if poolListFindFree pool ≠ 0 then takeSlot pool (poolListFindFree pool)
  else
    match grant with
    | none => (some 0, pool)
    | some page => if malloc then takeSlot (newPage pool page) page else (some 0, pool)

def poolFree (pool : Pool) (vptr : Nat) : Except Err Unit × Pool :=
  if vptr = 0 then (.error .io, pool)
  else if vptrPage vptr < 2 then (.error .io, pool)
  else
    match pool.page (vptrPage vptr) with
    | none => (.error .io, pool)
    | some payload =>
      let state := get payload offState 4
      let payload := put payload (slotOffset (vptrSlot vptr)) 2 (poolStateFirstFree state)
      let payload := put payload offState 4
        (poolStatePack (poolStateFreeCount state + 1) (vptrSlot vptr))
      (.ok (), { pool with
        page := Function.update pool.page (vptrPage vptr) (some payload)
        allocCount := pool.allocCount - 1 })

/-- `pool_release` of a pinned slot: its 32 bytes are written back. -/
def poolRelease (pool : Pool) (vptr : Nat) (bytes : Buffer) : Pool :=
  match pool.page (vptrPage vptr) with
  | none => pool
  | some payload =>
    { pool with
      page := Function.update pool.page (vptrPage vptr) (some fun o =>
        if slotOffset (vptrSlot vptr) ≤ o ∧ o < slotOffset (vptrSlot vptr) + 32 then
          bytes (o - slotOffset (vptrSlot vptr))
        else payload o) }

/-! ## Runs -/

inductive Call where
  | alloc (grant : Option Nat) (malloc : Bool)
  | free (vptr : Nat)
  | release (vptr : Nat) (bytes : Buffer)

structure Session where
  pool : Pool
  allocated : List Nat

def step (s : Session) : Call → Session
  | .alloc grant malloc =>
    match poolAlloc s.pool grant malloc with
    | (some (v + 1), pool) => ⟨pool, (v + 1) :: s.allocated⟩
    | (_, pool) => ⟨pool, s.allocated⟩
  | .free vptr => ⟨(poolFree s.pool vptr).2, s.allocated.erase vptr⟩
  | .release vptr bytes => ⟨poolRelease s.pool vptr bytes, s.allocated⟩

def Call.Ok (s : Session) : Call → Prop
  | .alloc grant _ => ∀ page ∈ grant, 2 ≤ page ∧ (s.pool.page page).isNone
  | .free vptr => vptr ∈ s.allocated
  | .release vptr _ => vptr ∈ s.allocated

instance (s : Session) : ∀ c : Call, Decidable (c.Ok s)
  | .alloc grant _ => inferInstanceAs (Decidable (∀ page ∈ grant, 2 ≤ page ∧ (s.pool.page page).isNone))
  | .free vptr => inferInstanceAs (Decidable (vptr ∈ s.allocated))
  | .release vptr _ => inferInstanceAs (Decidable (vptr ∈ s.allocated))

def newSession (pageSize : Nat) : Session := ⟨⟨pageSize, [], fun _ => none, 0, 0⟩, []⟩

def run (s : Session) (calls : List Call) : Session := calls.foldl step s

theorem step_alloc_pool (s : Session) (grant : Option Nat) (malloc : Bool) :
    (step s (.alloc grant malloc)).pool = (poolAlloc s.pool grant malloc).2 := by
  rw [step]
  split <;> rename_i heq <;> rw [heq]

theorem poolAlloc_cases (pool : Pool) (grant : Option Nat) (malloc : Bool) :
    poolAlloc pool grant malloc = takeSlot pool (poolListFindFree pool) ∨
      poolAlloc pool grant malloc = (some 0, pool) ∨
      ∃ page, grant = some page ∧ malloc = true ∧ poolListFindFree pool = 0 ∧
        poolAlloc pool grant malloc = takeSlot (newPage pool page) page := by
  by_cases hfind : poolListFindFree pool = 0
  · cases grant with
    | none => exact .inr (.inl (by simp [poolAlloc, hfind]))
    | some page =>
      cases malloc with
      | false => exact .inr (.inl (by simp [poolAlloc, hfind]))
      | true => exact .inr (.inr ⟨page, rfl, rfl, hfind, by simp [poolAlloc, hfind]⟩)
  · exact .inl (by simp [poolAlloc, hfind])

/-! ## Packed words -/

section Packing

variable {freeCount firstFree page slot page' slot' : Nat}

theorem pack_eq (hfirst : firstFree < 2 ^ 16) (hcount : freeCount < 2 ^ 16) :
    poolStatePack freeCount firstFree = freeCount * 2 ^ 16 + firstFree := by
  rw [poolStatePack, Nat.mod_eq_of_lt hcount, Nat.mod_eq_of_lt hfirst,
    ← Nat.shiftLeft_add_eq_or_of_lt hfirst, Nat.shiftLeft_eq]

theorem freeCount_pack (hfirst : firstFree < 2 ^ 16) (hcount : freeCount < 2 ^ 16) :
    poolStateFreeCount (poolStatePack freeCount firstFree) = freeCount := by
  rw [pack_eq hfirst hcount, poolStateFreeCount, Nat.shiftRight_eq_div_pow]
  omega

theorem firstFree_eq (state : Nat) : poolStateFirstFree state = state % 2 ^ 16 :=
  Nat.and_two_pow_sub_one_eq_mod state 16

theorem firstFree_pack (hfirst : firstFree < 2 ^ 16) (hcount : freeCount < 2 ^ 16) :
    poolStateFirstFree (poolStatePack freeCount firstFree) = firstFree := by
  rw [pack_eq hfirst hcount, firstFree_eq]
  omega

theorem pack_lt (hfirst : firstFree < 2 ^ 16) (hcount : freeCount < 2 ^ 16) :
    poolStatePack freeCount firstFree < 256 ^ 4 := by
  rw [pack_eq hfirst hcount]
  omega

theorem vptrMake_eq (hslot : slot < 2 ^ 16) : vptrMake page slot = page * 2 ^ 16 + slot := by
  have hmask : slot &&& 0xFFFF = slot :=
    (Nat.and_two_pow_sub_one_eq_mod slot 16).trans (Nat.mod_eq_of_lt hslot)
  rw [vptrMake, hmask, ← Nat.shiftLeft_add_eq_or_of_lt hslot, Nat.shiftLeft_eq]

theorem vptrPage_make (hslot : slot < 2 ^ 16) : vptrPage (vptrMake page slot) = page := by
  rw [vptrMake_eq hslot, vptrPage, Nat.shiftRight_eq_div_pow]
  omega

theorem vptrSlot_make (hslot : slot < 2 ^ 16) : vptrSlot (vptrMake page slot) = slot := by
  rw [vptrMake_eq hslot]
  refine (Nat.and_two_pow_sub_one_eq_mod _ 16).trans ?_
  omega

theorem vptrMake_inj (hslot : slot < 2 ^ 16) (hslot' : slot' < 2 ^ 16)
    (h : vptrMake page slot = vptrMake page' slot') : page = page' ∧ slot = slot' := by
  rw [vptrMake_eq hslot, vptrMake_eq hslot'] at h
  omega

end Packing

/-! ## The free list of a page -/

def nextFree (payload : Buffer) (i : Nat) : Nat := get payload (slotOffset i) 2

def state (payload : Buffer) : Nat := get payload offState 4

/-- The free list of a page: the list from the first free slot on has the counted length, and its
slots are those of the page that are not in `allocated`. -/
structure FreeList (pageSize : Nat) (allocated : List Nat) (page : Nat) (payload : Buffer)
    (chain : List Nat) : Prop where
  linked : Linked.Chain (nextFree payload) freeTerminal (poolStateFirstFree (state payload)) chain
  length : chain.length = poolStateFreeCount (state payload)
  mem : ∀ i, i ∈ chain ↔ i < slotCount pageSize ∧ vptrMake page i ∉ allocated

variable {pageSize page : Nat} {allocated chain : List Nat} {payload : Buffer}

theorem slotCount_lt (pageSize : Nat) : slotCount pageSize < 2 ^ 16 := by
  rw [slotCount]
  omega

theorem FreeList.length_le (h : FreeList pageSize allocated page payload chain) :
    chain.length ≤ slotCount pageSize := by
  have hsub : chain ⊆ List.range (slotCount pageSize) :=
    fun i hi => List.mem_range.2 ((h.mem i).1 hi).1
  simpa using (List.Nodup.subperm h.linked.nodup hsub).length_le

theorem nextFree_putState (payload : Buffer) (v i : Nat) :
    nextFree (put payload offState 4 v) i = nextFree payload i :=
  get_put_ne (by rw [slotOffset, offState]; omega)

theorem state_putState {v : Nat} (h : v < 256 ^ 4) : state (put payload offState 4 v) = v :=
  get_put h

theorem nextFree_putSlot_ne {i j v : Nat} (h : i ≠ j) :
    nextFree (put payload (slotOffset j) 2 v) i = nextFree payload i :=
  get_put_ne (by rw [slotOffset, slotOffset]; omega)

theorem nextFree_putSlot {i v : Nat} (h : v < 2 ^ 16) :
    nextFree (put payload (slotOffset i) 2 v) i = v :=
  get_put (by omega)

theorem nextFree_lt (payload : Buffer) (i : Nat) : nextFree payload i < 2 ^ 16 :=
  get_lt

theorem firstFree_lt (v : Nat) : poolStateFirstFree v < 2 ^ 16 := by
  rw [firstFree_eq]
  exact Nat.mod_lt _ (by decide)

/-! ### A new page -/

theorem nextFree_linkSlots (n i : Nat) (hn : n < 2 ^ 16) :
    nextFree (linkSlots (fun _ => 0) n) i = if i < n then i + 1 else 0 := by
  induction n with
  | zero => rfl
  | succ n ih =>
    have hstep : linkSlots (fun _ => 0) (n + 1) =
        put (linkSlots (fun _ => 0) n) (slotOffset n) 2 (n + 1) := by
      simp [linkSlots, List.range_succ]
    rw [hstep]
    by_cases hi : i = n
    · rw [hi, nextFree_putSlot hn, if_pos (Nat.lt_succ_self n)]
    · rw [nextFree_putSlot_ne hi, ih (by omega)]
      by_cases hlt : i < n
      · rw [if_pos hlt, if_pos (by omega)]
      · rw [if_neg hlt, if_neg (by omega)]

theorem range_chain {next : Nat → Nat} {n : Nat} (hn : n ≤ freeTerminal)
    (hnext : ∀ i, i + 1 < n → next i = i + 1) (hlast : next (n - 1) = freeTerminal) {k : Nat}
    (hk : k < n) : Linked.Chain next freeTerminal (n - 1 - k) (List.range' (n - 1 - k) (k + 1)) := by
  induction k with
  | zero => exact ⟨rfl, by omega, hlast⟩
  | succ k ih =>
    refine ⟨rfl, by omega, ?_⟩
    rw [hnext _ (by omega)]
    have heq : n - 1 - (k + 1) + 1 = n - 1 - k := by omega
    rw [heq]
    exact ih (by omega)

theorem poolPageInit_freeList (hsize : 48 ≤ pageSize) (hfresh : ∀ i < slotCount pageSize,
    vptrMake page i ∉ allocated) :
    FreeList pageSize allocated page (poolPageInit pageSize) (List.range (slotCount pageSize)) := by
  have hn : 0 < slotCount pageSize := by
    rw [slotCount]
    omega
  have hlt := slotCount_lt pageSize
  have hstate : state (poolPageInit pageSize) = poolStatePack (slotCount pageSize) 0 := by
    refine (get_put_ne (by rw [offState, offNext]; omega)).trans (get_put ?_)
    exact pack_lt (by omega) hlt
  have hnext : ∀ i, nextFree (poolPageInit pageSize) i =
      nextFree (put (linkSlots (fun _ => 0) (slotCount pageSize - 1))
        (slotOffset (slotCount pageSize - 1)) 2 freeTerminal) i := by
    intro i
    refine (get_put_ne ?_).trans (nextFree_putState ..)
    rw [slotOffset, offNext]
    omega
  refine ⟨?_, ?_, fun i => ?_⟩
  · have hlinks : ∀ i, i + 1 < slotCount pageSize → nextFree (poolPageInit pageSize) i = i + 1 := by
      intro i hi
      rw [hnext, nextFree_putSlot_ne (by omega), nextFree_linkSlots _ _ (by omega), if_pos (by omega)]
    have hlast : nextFree (poolPageInit pageSize) (slotCount pageSize - 1) = freeTerminal := by
      rw [hnext, nextFree_putSlot (by decide)]
    have hchain := range_chain (k := slotCount pageSize - 1) (by rw [freeTerminal]; omega) hlinks hlast
      (by omega)
    rw [hstate, firstFree_pack (by omega) hlt, List.range_eq_range']
    simpa [Nat.sub_add_cancel hn] using hchain
  · rw [hstate, freeCount_pack (by omega) hlt, List.length_range]
  · rw [List.mem_range]
    exact ⟨fun hi => ⟨hi, hfresh i hi⟩, fun h => h.1⟩

/-! ### One slot more, one slot less -/

theorem FreeList.take {first : Nat} (h : FreeList pageSize allocated page payload (first :: chain)) :
    FreeList pageSize (vptrMake page first :: allocated) page
      (put payload offState 4 (poolStatePack chain.length (nextFree payload first))) chain := by
  have hlength := h.length_le
  have hcount := slotCount_lt pageSize
  rw [List.length_cons] at hlength
  have hnodup := List.nodup_cons.1 h.linked.nodup
  have hstate : state (put payload offState 4 (poolStatePack chain.length (nextFree payload first))) =
      poolStatePack chain.length (nextFree payload first) :=
    state_putState (pack_lt (nextFree_lt ..) (by omega))
  refine ⟨?_, ?_, fun i => ?_⟩
  · rw [hstate, firstFree_pack (nextFree_lt ..) (by omega)]
    exact h.linked.2.2.congr fun i _ => nextFree_putState payload _ i
  · rw [hstate, freeCount_pack (nextFree_lt ..) (by omega)]
  · have hfirst := ((h.mem first).1 List.mem_cons_self).1
    constructor
    · intro hi
      obtain ⟨hlt, hfree⟩ := (h.mem i).1 (List.mem_cons_of_mem _ hi)
      refine ⟨hlt, fun hmem => ?_⟩
      obtain heq | hmem := List.mem_cons.1 hmem
      · obtain ⟨-, rfl⟩ := vptrMake_inj (by omega) (by omega) heq
        exact hnodup.1 hi
      · exact hfree hmem
    · rintro ⟨hlt, hfree⟩
      rw [List.mem_cons, not_or] at hfree
      obtain ⟨hne, hfree⟩ := hfree
      obtain rfl | hi := List.mem_cons.1 ((h.mem i).2 ⟨hlt, hfree⟩)
      · exact absurd rfl hne
      · exact hi

theorem FreeList.give {slot : Nat} (h : FreeList pageSize allocated page payload chain)
    (hslot : slot < slotCount pageSize) (hmem : vptrMake page slot ∈ allocated)
    (hnodup : allocated.Nodup) :
    FreeList pageSize (allocated.erase (vptrMake page slot)) page
      (put (put payload (slotOffset slot) 2 (poolStateFirstFree (state payload))) offState 4
        (poolStatePack (poolStateFreeCount (state payload) + 1) slot)) (slot :: chain) := by
  have hlt := slotCount_lt pageSize
  have hnot : slot ∉ chain := fun hs => ((h.mem slot).1 hs).2 hmem
  -- the list with the slot in front still fits the page
  have hroom : chain.length + 1 ≤ slotCount pageSize := by
    have hsub : slot :: chain ⊆ List.range (slotCount pageSize) := by
      intro i hi
      obtain rfl | hi := List.mem_cons.1 hi
      · exact List.mem_range.2 hslot
      · exact List.mem_range.2 ((h.mem i).1 hi).1
    simpa using (List.Nodup.subperm (List.nodup_cons.2 ⟨hnot, h.linked.nodup⟩) hsub).length_le
  have hnext : ∀ i, nextFree (put (put payload (slotOffset slot) 2 (poolStateFirstFree (state payload)))
      offState 4 (poolStatePack (poolStateFreeCount (state payload) + 1) slot)) i =
      nextFree (put payload (slotOffset slot) 2 (poolStateFirstFree (state payload))) i :=
    fun i => nextFree_putState ..
  have hcount : poolStateFreeCount (state payload) + 1 < 2 ^ 16 := by
    rw [← h.length]
    omega
  have hstate : state (put (put payload (slotOffset slot) 2 (poolStateFirstFree (state payload)))
      offState 4 (poolStatePack (poolStateFreeCount (state payload) + 1) slot)) =
        poolStatePack (poolStateFreeCount (state payload) + 1) slot :=
    state_putState (pack_lt (by omega) hcount)
  refine ⟨?_, ?_, fun i => ?_⟩
  · rw [hstate, firstFree_pack (by omega) hcount]
    refine h.linked.push (by rw [freeTerminal]; omega) ?_ fun i hi => ?_
    · rw [hnext, nextFree_putSlot (firstFree_lt _)]
    · rw [hnext, nextFree_putSlot_ne]
      rintro rfl
      exact hnot hi
  · rw [hstate, freeCount_pack (by omega) hcount, List.length_cons, h.length]
  · rw [List.mem_cons, hnodup.mem_erase_iff]
    constructor
    · rintro (rfl | hi)
      · exact ⟨hslot, fun hm => hm.1 rfl⟩
      · obtain ⟨hi, hfree⟩ := (h.mem i).1 hi
        exact ⟨hi, fun hm => hfree hm.2⟩
    · rintro ⟨hi, hfree⟩
      by_cases hs : i = slot
      · exact .inl hs
      · refine .inr ((h.mem i).2 ⟨hi, fun hm => hfree ⟨fun heq => hs ?_, hm⟩⟩)
        exact (vptrMake_inj (by omega) (by omega) heq).2

theorem FreeList.other {allocated' : List Nat} (h : FreeList pageSize allocated page payload chain)
    (hsame : ∀ i < slotCount pageSize, vptrMake page i ∈ allocated' ↔ vptrMake page i ∈ allocated) :
    FreeList pageSize allocated' page payload chain := by
  refine ⟨h.linked, h.length, fun i => (h.mem i).trans ⟨?_, ?_⟩⟩
  · rintro ⟨hi, hfree⟩
    exact ⟨hi, fun hm => hfree ((hsame i hi).1 hm)⟩
  · rintro ⟨hi, hfree⟩
    exact ⟨hi, fun hm => hfree ((hsame i hi).2 hm)⟩

/-! ## The invariant -/

structure Inv (pageSize : Nat) (s : Session) : Prop where
  size : s.pool.pageSize = pageSize
  page : ∀ page payload, s.pool.page page = some payload → 2 ≤ page ∧
    ∃ chain, FreeList pageSize s.allocated page payload chain
  slot : ∀ v ∈ s.allocated, ∃ page slot payload, v = vptrMake page slot ∧ slot < slotCount pageSize ∧
    s.pool.page page = some payload
  nodup : s.allocated.Nodup

variable {s : Session}

theorem Inv.update (h : Inv pageSize s) {pool : Pool} {page : Nat} {payload : Buffer}
    {allocated chain : List Nat} (hsize : pool.pageSize = s.pool.pageSize)
    (hpool : pool.page = Function.update s.pool.page page (some payload)) (htwo : 2 ≤ page)
    (hlist : FreeList pageSize allocated page payload chain)
    (hother : ∀ p, p ≠ page → ∀ i < slotCount pageSize,
      (vptrMake p i ∈ allocated ↔ vptrMake p i ∈ s.allocated))
    (hslot : ∀ v ∈ allocated, v ∈ s.allocated ∨ ∃ i < slotCount pageSize, v = vptrMake page i)
    (hnodup : allocated.Nodup) : Inv pageSize ⟨pool, allocated⟩ := by
  refine ⟨hsize.trans h.size, fun p payload' hp => ?_, fun v hv => ?_, hnodup⟩
  · simp only [hpool] at hp
    by_cases hpp : p = page
    · subst hpp
      rw [Function.update_self] at hp
      cases hp
      exact ⟨htwo, chain, hlist⟩
    · rw [Function.update_of_ne hpp] at hp
      obtain ⟨htwo', chain', hlist'⟩ := h.page p payload' hp
      exact ⟨htwo', chain', hlist'.other (hother p hpp)⟩
  · have hsome : ∀ p payload', s.pool.page p = some payload' → ∃ payload', pool.page p = some payload' := by
      intro p payload' hp
      rw [hpool]
      by_cases hpp : p = page
      · exact ⟨payload, by rw [hpp, Function.update_self]⟩
      · exact ⟨payload', by rw [Function.update_of_ne hpp, hp]⟩
    obtain hv | ⟨i, hi, rfl⟩ := hslot v hv
    · obtain ⟨p, i, payload', rfl, hi, hp⟩ := h.slot v hv
      obtain ⟨payload'', hp'⟩ := hsome p payload' hp
      exact ⟨p, i, payload'', rfl, hi, hp'⟩
    · exact ⟨page, i, payload, rfl, hi, by rw [hpool, Function.update_self]⟩

theorem findFree_page {pool : Pool} {n p : Nat} (h : findFree pool n p ≠ 0) :
    ∃ payload, pool.page (findFree pool n p) = some payload ∧
      0 < poolStateFreeCount (state payload) := by
  induction n generalizing p with
  | zero => simp [findFree] at h
  | succ n ih =>
    rw [findFree] at h ⊢
    by_cases hp : p = 0
    · simp [hp] at h
    · rw [if_neg hp] at h ⊢
      cases hpage : pool.page p with
      | none => simp [hpage] at h
      | some payload =>
        simp only [hpage] at h ⊢
        by_cases hfree : 0 < poolStateFreeCount (get payload offState 4)
        · rw [if_pos hfree]
          exact ⟨payload, hpage, hfree⟩
        · rw [if_neg hfree] at h ⊢
          exact ih h

theorem findFree_spec {pool : Pool} (h : poolListFindFree pool ≠ 0) :
    ∃ payload, pool.page (poolListFindFree pool) = some payload ∧
      0 < poolStateFreeCount (state payload) :=
  findFree_page h

structure Took (pageSize : Nat) (s : Session) (v : Nat) (pool : Pool) : Prop where
  inv : Inv pageSize ⟨pool, v :: s.allocated⟩
  fresh : v ∉ s.allocated
  ne_zero : v ≠ 0

theorem Inv.takeSlot (h : Inv pageSize s) {page : Nat} {payload : Buffer}
    (hpage : s.pool.page page = some payload) (hfree : 0 < poolStateFreeCount (state payload)) :
    ∃ v pool, takeSlot s.pool page = (some v, pool) ∧ Took pageSize s v pool := by
  obtain ⟨htwo, chain, hlist⟩ := h.page page payload hpage
  cases chain with
  | nil =>
    have := hlist.length
    simp at this
    omega
  | cons first chain =>
    obtain ⟨hfirst, -, -⟩ := hlist.linked
    have hlength : poolStateFreeCount (state payload) - 1 = chain.length := by
      rw [← hlist.length, List.length_cons, Nat.add_sub_cancel]
    obtain ⟨hslot, hfresh⟩ := (hlist.mem first).1 List.mem_cons_self
    have hlt := slotCount_lt pageSize
    refine ⟨vptrMake page first, { s.pool with
      page := Function.update s.pool.page page (some
        (put payload offState 4 (poolStatePack chain.length (nextFree payload first))))
      allocCount := s.pool.allocCount + 1 }, ?_, ?_, hfresh, ?_⟩
    · have hne : ¬ poolStateFreeCount (get payload offState 4) = 0 := Nat.ne_of_gt hfree
      simp only [PoolAlloc.takeSlot, hpage, if_neg hne]
      rw [show get payload offState 4 = state payload from rfl, hfirst, hlength]
      rfl
    · refine h.update rfl rfl htwo hlist.take (fun p hp i hi => ?_) (fun v hv => ?_)
        (List.nodup_cons.2 ⟨hfresh, h.nodup⟩)
      · refine List.mem_cons.trans (or_iff_right fun heq => hp ?_)
        exact (vptrMake_inj (by omega) (by omega) heq).1
      · obtain rfl | hv := List.mem_cons.1 hv
        · exact .inr ⟨first, hslot, rfl⟩
        · exact .inl hv
    · rw [vptrMake_eq (by omega)]
      omega

theorem Inv.newPage (h : Inv pageSize s) (hsize : 48 ≤ pageSize) {page : Nat} (htwo : 2 ≤ page)
    (hnone : s.pool.page page = none) :
    Inv pageSize ⟨newPage s.pool page, s.allocated⟩ ∧
      (newPage s.pool page).page page = some (poolPageInit pageSize) ∧
      0 < poolStateFreeCount (state (poolPageInit pageSize)) := by
  have hlt := slotCount_lt pageSize
  have hlist : FreeList pageSize s.allocated page (poolPageInit pageSize)
      (List.range (slotCount pageSize)) := by
    refine poolPageInit_freeList hsize fun i hi hm => ?_
    obtain ⟨p, slot, payload, heq, hslot, hp⟩ := h.slot _ hm
    obtain ⟨rfl, -⟩ := vptrMake_inj (by omega) (by omega) heq
    rw [hnone] at hp
    cases hp
  have hpage : (PoolAlloc.newPage s.pool page).page =
      Function.update s.pool.page page (some (poolPageInit pageSize)) := by
    rw [← h.size]
    rfl
  refine ⟨h.update rfl hpage htwo hlist (fun _ _ _ _ => Iff.rfl) (fun v hv => .inl hv) h.nodup, ?_, ?_⟩
  · rw [hpage, Function.update_self]
  · rw [← hlist.length, List.length_range, slotCount]
    omega

theorem Inv.granted (h : Inv pageSize s) (hsize : 48 ≤ pageSize) {page : Nat} (htwo : 2 ≤ page)
    (hnone : s.pool.page page = none) :
    ∃ v pool, poolAlloc s.pool (some page) true = (some v, pool) ∧ Took pageSize s v pool := by
  rw [PoolAlloc.poolAlloc]
  by_cases hfind : poolListFindFree s.pool = 0
  · obtain ⟨hinv, hpage, hfree⟩ := h.newPage hsize htwo hnone
    obtain ⟨v, pool, heq, htook⟩ := hinv.takeSlot hpage hfree
    exact ⟨v, pool, by simpa [hfind] using heq, htook.inv, htook.fresh, htook.ne_zero⟩
  · obtain ⟨payload, hpage, hfree⟩ := findFree_spec hfind
    obtain ⟨v, pool, heq, htook⟩ := h.takeSlot hpage hfree
    exact ⟨v, pool, by simpa [hfind] using heq, htook⟩

theorem Inv.alloc_ok (h : Inv pageSize s) (hsize : 48 ≤ pageSize) {grant : Option Nat} {malloc : Bool}
    (hok : (Call.alloc grant malloc).Ok s)
    (hgrant : poolListFindFree s.pool = 0 → grant.isSome ∧ malloc = true) :
    ∃ v pool, poolAlloc s.pool grant malloc = (some v, pool) ∧ Took pageSize s v pool := by
  by_cases hfind : poolListFindFree s.pool = 0
  · obtain ⟨hsome, rfl⟩ := hgrant hfind
    obtain ⟨page, rfl⟩ := Option.isSome_iff_exists.1 hsome
    obtain ⟨htwo, hnone⟩ := hok page rfl
    exact h.granted hsize htwo (Option.isNone_iff_eq_none.1 hnone)
  · obtain ⟨payload, hpage, hfree⟩ := findFree_spec hfind
    obtain ⟨v, pool, heq, htook⟩ := h.takeSlot hpage hfree
    exact ⟨v, pool, by simpa [PoolAlloc.poolAlloc, hfind] using heq, htook⟩

theorem Inv.alloc_cases (h : Inv pageSize s) (hsize : 48 ≤ pageSize) {grant : Option Nat}
    {malloc : Bool} (hok : (Call.alloc grant malloc).Ok s) :
    poolAlloc s.pool grant malloc = (some 0, s.pool) ∨
      ∃ v pool, poolAlloc s.pool grant malloc = (some v, pool) ∧ Took pageSize s v pool := by
  by_cases hgrant : poolListFindFree s.pool = 0 → grant.isSome ∧ malloc = true
  · exact .inr (h.alloc_ok hsize hok hgrant)
  · refine .inl ?_
    cases grant <;> cases malloc <;> simp_all [PoolAlloc.poolAlloc]

theorem Inv.slot_parts (h : Inv pageSize s) {v : Nat} (hv : v ∈ s.allocated) :
    ∃ page slot payload, v = vptrMake page slot ∧ slot < slotCount pageSize ∧ s.pool.page page = some payload ∧
      vptrPage (vptrMake page slot) = page ∧ vptrSlot (vptrMake page slot) = slot := by
  obtain ⟨page, slot, payload, rfl, hslot, hpage⟩ := h.slot v hv
  have hlt := slotCount_lt pageSize
  exact ⟨page, slot, payload, rfl, hslot, hpage, vptrPage_make (by omega), vptrSlot_make (by omega)⟩

theorem Inv.poolFree (h : Inv pageSize s) {v : Nat} (hv : v ∈ s.allocated) :
    Inv pageSize ⟨(poolFree s.pool v).2, s.allocated.erase v⟩ := by
  obtain ⟨page, slot, payload, rfl, hslot, hpage, hp, hs⟩ := h.slot_parts hv
  obtain ⟨htwo, chain, hlist⟩ := h.page page payload hpage
  have hlt := slotCount_lt pageSize
  have hne : vptrMake page slot ≠ 0 := by
    rw [vptrMake_eq (by omega)]
    omega
  simp only [PoolAlloc.poolFree, hp, hs, hpage, if_neg hne, if_neg (Nat.not_lt.2 htwo)]
  refine h.update rfl rfl htwo (hlist.give hslot hv h.nodup) (fun p hne' i hi => ?_)
    (fun v hv => .inl (List.mem_of_mem_erase hv)) (h.nodup.erase _)
  refine List.mem_erase_of_ne fun heq => hne' ?_
  exact (vptrMake_inj (by omega) (by omega) heq).1

theorem Inv.poolRelease (h : Inv pageSize s) {v : Nat} (hv : v ∈ s.allocated) (bytes : Buffer) :
    Inv pageSize ⟨poolRelease s.pool v bytes, s.allocated⟩ := by
  obtain ⟨page, slot, payload, rfl, hslot, hpage, hp, hs⟩ := h.slot_parts hv
  obtain ⟨htwo, chain, hlist⟩ := h.page page payload hpage
  have hlt := slotCount_lt pageSize
  simp only [PoolAlloc.poolRelease, hp, hs, hpage]
  set payload' : Buffer := fun o =>
    if slotOffset slot ≤ o ∧ o < slotOffset slot + 32 then bytes (o - slotOffset slot) else payload o
  -- neither the state word nor a free slot is written
  have hsame : ∀ off n, off + n ≤ slotOffset slot ∨ slotOffset slot + 32 ≤ off →
      get payload' off n = get payload off n :=
    fun off n hoff => get_congr fun i hi => if_neg (by omega)
  have hstate : state payload' = state payload := hsame _ _ (by rw [slotOffset, offState]; omega)
  have hlist' : FreeList pageSize s.allocated page payload' chain := by
    refine ⟨?_, by rw [hstate, hlist.length], hlist.mem⟩
    rw [hstate]
    refine hlist.linked.congr fun i hi => hsame _ _ ?_
    have hne : i ≠ slot := by
      rintro rfl
      exact ((hlist.mem i).1 hi).2 hv
    rw [slotOffset, slotOffset]
    omega
  exact h.update rfl rfl htwo hlist' (fun _ _ _ _ => Iff.rfl) (fun v hv => .inl hv) h.nodup

theorem step_inv (hsize : 48 ≤ pageSize) (h : Inv pageSize s) {c : Call} (hok : c.Ok s) :
    Inv pageSize (step s c) := by
  cases c with
  | alloc grant malloc =>
    obtain heq | ⟨v, pool, heq, htook⟩ := h.alloc_cases hsize hok
    · simp only [step, heq]
      exact h
    · obtain ⟨v, rfl⟩ := Nat.exists_eq_succ_of_ne_zero htook.ne_zero
      simp only [step, heq]
      exact htook.inv
  | free v => exact h.poolFree hok
  | release v bytes => exact h.poolRelease hok bytes

theorem newSession_inv (pageSize : Nat) : Inv pageSize (newSession pageSize) :=
  ⟨rfl, fun _ _ h => by simp [newSession] at h, fun _ h => by simp [newSession] at h, List.nodup_nil⟩

/-- **The pool allocator.** After every sequence of calls in which the client frees and writes only
slots it has, the free list of every pool page has no cycle and the length that is counted, and its
slots are those of the page the client does not have. So an allocation for which the store and
`malloc` succeed returns a pointer, and never to a slot that is in use. -/
theorem pool_free_lists {pageSize : Nat} (hsize : 48 ≤ pageSize) (calls : List Call)
    (hrun : Run.AllSteps step (fun s c => c.Ok s) (newSession pageSize) calls) :
    let s := run (newSession pageSize) calls
    (∀ page payload, s.pool.page page = some payload → ∃ chain : List Nat,
      Linked.Chain (nextFree payload) freeTerminal (poolStateFirstFree (state payload)) chain ∧
      chain.Nodup ∧ chain.length = poolStateFreeCount (state payload) ∧
      ∀ i, i ∈ chain ↔ i < slotCount pageSize ∧ vptrMake page i ∉ s.allocated) ∧
    (∀ page, (Call.alloc (some page) true).Ok s →
      ∃ v, (poolAlloc s.pool (some page) true).1 = some v ∧ v ≠ 0) ∧
    ∀ grant malloc v, (Call.alloc grant malloc).Ok s → (poolAlloc s.pool grant malloc).1 = some v →
      v ≠ 0 → v ∉ s.allocated := by
  have h : Inv pageSize (run (newSession pageSize) calls) :=
    Run.invariant (Inv pageSize) (fun _ _ hs hok => step_inv hsize hs hok) (newSession_inv pageSize) hrun
  refine ⟨fun page payload hpage => ?_, fun page hok => ?_, fun grant malloc v hok heq hv => ?_⟩
  · obtain ⟨-, chain, hlist⟩ := h.page page payload hpage
    exact ⟨chain, hlist.linked, hlist.linked.nodup, hlist.length, hlist.mem⟩
  · obtain ⟨htwo, hnone⟩ := hok page rfl
    obtain ⟨v, pool, heq, htook⟩ := h.granted hsize htwo (Option.isNone_iff_eq_none.1 hnone)
    exact ⟨v, by rw [heq], htook.ne_zero⟩
  · obtain hnull | ⟨v', pool, heq', htook⟩ := h.alloc_cases hsize hok
    · rw [hnull] at heq
      cases heq
      exact absurd rfl hv
    · rw [heq'] at heq
      cases heq
      exact htook.fresh

theorem pool_free_lists_small :
    let s := run (newSession 112) [.alloc (some 2) true, .alloc none false, .free (vptrMake 2 0)]
    s.allocated = [vptrMake 2 1] ∧ ∃ v, (poolAlloc s.pool (some 3) true).1 = some v ∧ v ≠ 0 :=
  ⟨by decide +kernel, (pool_free_lists (by decide)
    [.alloc (some 2) true, .alloc none false, .free (vptrMake 2 0)] (by decide +kernel)).2.1 3
      (by decide +kernel)⟩

end PoolAlloc
end SphereVFS
