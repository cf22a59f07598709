import SphereVFS.StorageFresh

/-!
# SphereVFS.StorageScan

Runs of pages (`storage_allocate_count_scan`) and pages by number (`storage_acquire`).

Both take any page without an entry. That is not only what was never used: a page that waits on the free list
has none either, nor has a drained page of the free list, nor the place of the next overflow page. The queue
for deferred frees is empty here.
-/

namespace SphereVFS
namespace Storage

/-! ## The calls -/

/-- The loop that looks for `count` pages without an entry, from page `i` on. -/
def findRun (b : Backend) (count : Nat) : Nat → Nat → Nat → Nat → Option Nat
  | 0, _, runStart, runLen => if runLen < count then none else some runStart
  | n + 1, i, runStart, runLen =>
    if count ≤ runLen then some runStart
    else if indirLookup b i = 0 then findRun b count n (i + 1) (if runLen = 0 then i else runStart) (runLen + 1)
    else findRun b count n (i + 1) runStart 0

/-- The loop that claims them; `false` if an entry is taken. -/
def claimRun : Nat → Nat → Backend → Bool × Backend
  | 0, _, b => (true, b)
  | n + 1, page, b =>
    match tryClaimEntry { b with physicalTail := b.physicalTail + physRecordSize b } page b.physicalTail with
    | none => (false, { b with physicalTail := b.physicalTail + physRecordSize b })
    | some b1 => claimRun n (page + 1) b1

/-- `storage_allocate_count_scan`, with the attempts that are left. -/
def storageAllocateCountScan (count : Nat) : Nat → Backend → Option Nat × Backend
  | 0, b => (none, b)
  | attempts + 1, b =>
    match findRun b count (totalEntries b - 2) 2 0 0 with
    | none => (none, b)
    | some runStart =>
      match claimRun count runStart b with
      | (true, b1) => (some runStart, { b1 with totalPages := max b1.totalPages (runStart + count) })
      | (false, b1) => storageAllocateCountScan count attempts b1

/-- `storage_allocate`. -/
def storageAllocatePages (crc : Words → UInt32) (b : Backend) (count : Int) : Option Nat × Backend :=
  if count ≤ 0 then (none, b)
  else if 1 < count then storageAllocateCountScan count.toNat 1000 b
  else storageAllocate crc b

/-- `storage_acquire`. The number of pages that are missing is cut to an `int`. -/
def storageAcquire (b : Backend) (page : Int) : Bool × Backend :=
  if page < 0 then (false, b)
  else
    let required := (b.totalPages + (page - totalEntries b + 1).bmod (2 ^ 32)).toNat
    let b1 := if totalEntries b ≤ page then growTable required (required + 1) b else b
    if indirLookup b1 page ≠ 0 then (false, b1)
    else
      let b2 := { b1 with physicalTail := b1.physicalTail + physRecordSize b1 }
      match tryClaimEntry b2 page.toNat b1.physicalTail with
      | none => (false, b2)
      | some b3 => (true, { b3 with totalPages := max b3.totalPages (page.toNat + 1) })

inductive PageCall where
  | allocate (count : Int)
  | acquire (page : Int)
  | free (page : Nat)

def own (pages : Nat → Option (Option Words)) (new : List Nat) : Nat → Option (Option Words) :=
  new.foldl (fun pages p => Function.update pages p (some none)) pages

def pageCall (crc : Words → UInt32) (s : Session) : PageCall → List Nat × Session
  | .allocate count =>
    match storageAllocatePages crc s.backend count with
    | (none, b) => ([], ⟨b, s.pages⟩)
    | (some page, b) => (List.range' page count.toNat, ⟨b, own s.pages (List.range' page count.toNat)⟩)
  | .acquire page =>
    match storageAcquire s.backend page with
    | (false, b) => ([], ⟨b, s.pages⟩)
    | (true, b) => ([page.toNat], ⟨b, own s.pages [page.toNat]⟩)
  | .free page => ([], step crc s (.free page))

def pageStep (crc : Words → UInt32) (s : Session) (c : PageCall) : Session := (pageCall crc s c).2

/-! ## The condition -/

def Waits (s : Session) (p : Nat) : Prop :=
  ∃ chain, Linked.Chain (queueNext s.backend.cache) 0 s.backend.freeListHead chain ∧
    ∃ x ∈ queued s.backend.cache chain, x.1 = p

/-- A page without an entry is spare when it is not reserved, not on the free list, not cached (a drained page of the
list is), and not the place of an overflow page. -/
structure Spare (s : Session) (p : Nat) : Prop where
  two_le : 2 ≤ p
  not_waiting : ¬ Waits s p
  uncached : s.backend.cache p = none
  not_table : ∀ i, p ≠ overflowLogical s.backend.pageSize i

/-- The first `count` pages in a row without an entry. -/
structure FirstRun (b : Backend) (count start : Nat) : Prop where
  two_le : 2 ≤ start
  le_total : start + count ≤ totalEntries b
  free : ∀ j < count, indirLookup b (start + j : Nat) = 0
  first : ∀ start', 2 ≤ start' → start' < start → ∃ j < count, indirLookup b (start' + j : Nat) ≠ 0

def PageCall.Clear (s : Session) : PageCall → Prop
  | .allocate count => 1 < count → ∀ start, FirstRun s.backend count.toNat start →
      ∀ j < count.toNat, Spare s (start + j)
  | .acquire page => 0 ≤ page → indirLookup s.backend page = 0 → Spare s page.toNat
  | .free page => 2 ≤ page ∧ s.pages page ≠ none

/-- Two pages next to each other wait on the free list, and a run of two pages takes them. -/
theorem scan_takes_waiting :
    let s := [PageCall.allocate 1, .allocate 1, .free 2, .free 3].foldl (pageStep wordSum) (newSession wordSum 512)
    (pageCall wordSum s (.allocate 2)).1 = [2, 3] ∧
      queued s.backend.cache [s.backend.freeListHead] = [(2, 1056), (3, 1584)] := by
  decide +kernel

/-! ## The scan -/

theorem findRun_spec {b : Backend} {count : Nat} (hcount : 0 < count) {r : Nat} (n : Nat) :
    ∀ {i runStart runLen : Nat}, 2 + runLen ≤ i → runLen ≤ count → (runLen = 0 ∨ runStart + runLen = i) →
    (∀ j < runLen, indirLookup b (i - runLen + j : Nat) = 0) →
    (∀ r', 2 ≤ r' → r' + runLen < i → ∃ j < count, indirLookup b (r' + j : Nat) ≠ 0) →
    findRun b count n i runStart runLen = some r → 2 ≤ r ∧ r + count ≤ i + n ∧
      (∀ j < count, indirLookup b (r + j : Nat) = 0) ∧
      ∀ r', 2 ≤ r' → r' < r → ∃ j < count, indirLookup b (r' + j : Nat) ≠ 0 := by
  induction n with
  | zero =>
    intro i runStart runLen hi hle hstart hzero hfirst h
    rw [findRun] at h
    split at h
    · cases h
    · cases h
      obtain rfl : runLen = count := by omega
      obtain rfl : i = r + runLen := by omega
      rw [Nat.add_sub_cancel] at hzero
      exact ⟨by omega, by omega, hzero, fun r' h2 hlt => hfirst r' h2 (by omega)⟩
  | succ n ih =>
    intro i runStart runLen hi hle hstart hzero hfirst h
    rw [findRun] at h
    split at h
    · cases h
      obtain rfl : runLen = count := by omega
      obtain rfl : i = r + runLen := by omega
      rw [Nat.add_sub_cancel] at hzero
      exact ⟨by omega, by omega, hzero, fun r' h2 hlt => hfirst r' h2 (by omega)⟩
    · rename_i hlt
      split at h
      · rename_i hfree
        have hzero' : ∀ j < runLen + 1, indirLookup b (i + 1 - (runLen + 1) + j : Nat) = 0 := by
          intro j hj
          rw [Nat.add_sub_add_right]
          obtain hj | rfl := Nat.lt_or_eq_of_le (Nat.le_of_lt_succ hj)
          · exact hzero j hj
          · rw [Nat.sub_add_cancel (by omega)]
            exact hfree
        obtain ⟨h1, h2, h3⟩ := ih (by omega) (by omega) (by split <;> omega) hzero'
          (fun r' h2 hr' => hfirst r' h2 (by omega)) h
        exact ⟨h1, by omega, h3⟩
      · rename_i htaken
        -- a run that starts before the end of this one has the taken page
        have hfirst' : ∀ r', 2 ≤ r' → r' + 0 < i + 1 → ∃ j < count, indirLookup b (r' + j : Nat) ≠ 0 := by
          intro r' h2 hr'
          by_cases hold : r' + runLen < i
          · exact hfirst r' h2 hold
          · exact ⟨i - r', by omega, by rwa [Nat.add_sub_cancel' (by omega)]⟩
        obtain ⟨h1, h2, h3⟩ := ih (by omega) (Nat.zero_le _) (.inl rfl) (fun j hj => absurd hj (Nat.not_lt_zero j))
          hfirst' h
        exact ⟨h1, by omega, h3⟩

theorem findRun_first {b : Backend} (hsize : 120 ≤ b.pageSize) {count r : Nat} (hcount : 0 < count)
    (h : findRun b count (totalEntries b - 2) 2 0 0 = some r) : FirstRun b count r := by
  have htotal : 3 ≤ totalEntries b := Nat.le_trans (inlineEntryCount_large hsize) (Nat.le_add_right _ _)
  obtain ⟨h1, h2, h3, h4⟩ := findRun_spec hcount _ (Nat.le_refl _) (Nat.zero_le _) (.inl rfl)
    (fun j hj => absurd hj (Nat.not_lt_zero j)) (fun r' h2 hr' => absurd h2 (by omega)) h
  exact ⟨h1, by omega, h3, h4⟩

/-! ## The invariant -/

structure Tracked (crc : Words → UInt32) (s : Session) (L : Layout) (chain : List Nat) : Prop
    extends Healthy crc s L chain where
  listed : ∀ p : Nat, 2 ≤ p → L.kind p = .client → indirLookup s.backend p = 0 →
    ∃ x ∈ queued s.backend.cache chain, x.1 = p
  header : ∀ p, L.kind p = .header → p = 0

section Pages

variable {crc : Words → UInt32} {s : Session} {b : Backend} {pages : Nat → Option (Option Words)} {L L' : Layout}
  {chain : List Nat} {p n : Nat}

theorem Tracked.unused (h : Tracked crc s L chain) (hp : Spare s p) (hlook : indirLookup s.backend p = 0) :
    L.kind p = .none := by
  cases hk : L.kind p with
  | none => rfl
  | header => exact absurd (h.header p hk) (Nat.ne_of_gt (Nat.lt_of_lt_of_le Nat.two_pos hp.two_le))
  | client =>
    obtain ⟨x, hx, rfl⟩ := h.listed p hp.two_le hk hlook
    exact absurd ⟨chain, h.linked, x, hx, rfl⟩ hp.not_waiting
  | sibling q => exact absurd hlook (h.inv.table.sibling_live p q hk).1
  | queue =>
    have hcached := h.cached p hk
    rw [hp.uncached] at hcached
    cases hcached
  | table => exact absurd hlook (h.inv.table.table_live p hk)

theorem Inv.adjust (h : Inv crc b pages L) {n tail : Nat} (hn : b.totalPages ≤ n) (hroom : n < totalEntries b)
    (htail : b.physicalTail ≤ tail) : Inv crc { b with totalPages := n, physicalTail := tail } pages L := by
  refine h.extend (.refl L) ?_ (fun p hp hp' => absurd hp hp') (fun _ _ => rfl) htail rfl rfl rfl rfl rfl
  exact { h.table with
    two_le := Nat.le_trans h.table.two_le hn
    room := hroom
    home_lt := fun p hp => Nat.lt_of_lt_of_le (h.table.home_lt p hp) htail
    ahead := fun p hp => h.table.ahead p (Nat.le_trans hn hp) }

theorem Tracked.adjust (h : Tracked crc s L chain) (hn : s.backend.totalPages ≤ n)
    (hroom : n < totalEntries s.backend) (m : Nat) :
    Tracked crc ⟨{ s.backend with
      totalPages := n
      physicalTail := s.backend.physicalTail + m * physRecordSize s.backend }, s.pages⟩ L chain := by
  have hinv := h.inv.adjust hn hroom (Nat.le_add_right _ (m * physRecordSize s.backend))
  refine ⟨⟨hinv, h.queue.extend h.inv (.refl L) ⟨rfl, rfl, rfl, rfl, rfl, rfl, rfl⟩ (fun _ _ => rfl)
    fun p hp => by simp [hp], h.cached, h.home, ?_⟩, h.listed, h.header⟩
  exact ⟨Nat.dvd_add h.tail.1 (Nat.dvd_mul_left _ _), Nat.le_trans h.tail.2 (Nat.le_add_right _ _)⟩

theorem Tracked.grow (h : Tracked crc s L chain) (r n : Nat) :
    ∃ L', Tracked crc ⟨growTable r n s.backend, s.pages⟩ L' chain ∧
      Grown crc s.pages s.backend (growTable r n s.backend) L L' := by
  obtain ⟨L', hg⟩ := h.inv.growTable r n
  obtain ⟨hhome, htail⟩ := h.records hg.ext hg.records hg.same.pageSize
  refine ⟨L', ⟨⟨hg.inv, h.queue.grown h.inv hg, fun p hp => ?_, hhome, htail⟩, fun p htwo hp hlook => ?_,
    fun p hp => ?_⟩, hg⟩
  all_goals
    have hused : L.kind p ≠ .none := by
      intro hnone
      obtain hk | hk := hg.others p hnone <;> simp [hk] at hp
    rw [(hg.ext.used p hused).1] at hp
  · show ((growTable r n s.backend).cache p).isSome
    rw [hg.same.cache]
    exact h.cached p hp
  · show ∃ x ∈ queued (growTable r n s.backend).cache chain, x.1 = p
    rw [hg.same.cache]
    exact h.listed p htwo hp ((hg.look p hused).symm.trans hlook)
  · exact h.header p hp

theorem Tracked.claim (h : Tracked crc s L chain) (hp : L.kind p = .none) (hlt : p < s.backend.totalPages) :
    ∃ b' L', tryClaimEntry { s.backend with physicalTail := s.backend.physicalTail + physRecordSize s.backend } p
        s.backend.physicalTail = some b' ∧ Tracked crc ⟨b', Function.update s.pages p (some none)⟩ L' chain ∧
      Claimed crc s.pages .client s.backend b' L L' p ∧ b'.totalPages = s.backend.totalPages := by
  have hc := h.inv.claim (k := .client) (.inl rfl) hp (Nat.le_refl _) hlt h.inv.table.room
  obtain ⟨hhome, htail⟩ := h.records hc.ext hc.records hc.same.pageSize
  have hlook : indirLookup s.backend p = 0 := by
    by_contra hne
    exact (h.inv.table.entry p hne).2 hp
  have hrange : p < totalEntries s.backend := Nat.lt_trans hlt h.inv.table.room
  refine ⟨_, _, ?_, ⟨⟨hc.inv.own hc.kind hc.entry, h.queue.extend h.inv hc.ext hc.same hc.look fun q hq => ?_,
    fun q hq => ?_, hhome, htail⟩, fun q htwo hq hzero => ?_, fun q hq => ?_⟩, hc, rfl⟩
  · exact (if_neg (not_not.2 hlook)).trans (if_pos hrange)
  all_goals
    have hqp : q ≠ p := by
      rintro rfl
      first
        | exact hc.entry hzero
        | simp [hc.kind] at hq
    have hused : L.kind q ≠ .none := by
      intro hnone
      simp [hc.others q hnone hqp] at hq
  · exact hused
  · exact h.cached q ((hc.ext.used q hused).1 ▸ hq)
  · exact h.listed q htwo ((hc.ext.used q hused).1 ▸ hq) ((hc.look q hused).symm.trans hzero)
  · exact h.header q ((hc.ext.used q hused).1 ▸ hq)

/-! ## The calls keep it -/

theorem tryClaimEntry_pages (m : Nat) (b : Backend) (p offset : Nat) :
    tryClaimEntry { b with totalPages := m } p offset =
      (tryClaimEntry b p offset).map fun b' => { b' with totalPages := m } := by
  by_cases hlook : indirLookup b p = 0
  · by_cases hlt : p < totalEntries b
    · rw [tryClaimEntry, tryClaimEntry, if_neg (not_not.2 hlook), if_pos hlt]
      exact (if_neg (not_not.2 hlook)).trans (if_pos hlt)
    · rw [tryClaimEntry, tryClaimEntry, if_neg (not_not.2 hlook), if_neg hlt]
      exact (if_neg (not_not.2 hlook)).trans (if_neg hlt)
  · rw [tryClaimEntry, tryClaimEntry, if_pos hlook]
    exact if_pos hlook

theorem claimRun_totalPages (m : Nat) : ∀ (n p : Nat) (b : Backend), claimRun n p { b with totalPages := m } =
    ((claimRun n p b).1, { (claimRun n p b).2 with totalPages := m }) := by
  intro n
  induction n with
  | zero => exact fun _ _ => rfl
  | succ n ih =>
    intro p b
    have hclaim := tryClaimEntry_pages m { b with physicalTail := b.physicalTail + physRecordSize b } p
      b.physicalTail
    rw [claimRun, claimRun]
    cases heq : tryClaimEntry { b with physicalTail := b.physicalTail + physRecordSize b } p b.physicalTail with
    | none =>
      rw [heq] at hclaim
      simp only [physRecordSize] at hclaim ⊢
      rw [hclaim]
      rfl
    | some b1 =>
      rw [heq] at hclaim
      simp only [physRecordSize] at hclaim ⊢
      rw [hclaim]
      exact ih _ _

theorem Tracked.claimRun (n : Nat) : ∀ {s : Session} {L : Layout} {p : Nat}, Tracked crc s L chain →
    (∀ j < n, L.kind (p + j) = .none) → p + n ≤ s.backend.totalPages → ∃ b' L',
      claimRun n p s.backend = (true, b') ∧ Tracked crc ⟨b', own s.pages (List.range' p n)⟩ L' chain ∧
        L.Extends L' := by
  induction n with
  | zero => exact fun h _ _ => ⟨_, _, rfl, h, .refl _⟩
  | succ n ih =>
    intro s L p h hunused hle
    obtain ⟨b1, L1, heq, h1, hc, htotal⟩ := h.claim (p := p) (hunused 0 n.succ_pos) (by omega)
    have hunused1 : ∀ j < n, L1.kind (p + 1 + j) = .none := by
      intro j hj
      rw [Nat.add_assoc, Nat.add_comm 1 j]
      exact hc.others _ (hunused (j + 1) (by omega)) (by omega)
    obtain ⟨b', L', heq', h', hext⟩ := ih h1 hunused1 (by show p + 1 + n ≤ b1.totalPages; omega)
    refine ⟨b', L', ?_, h', hc.ext.trans hext⟩
    rw [Storage.claimRun, heq]
    exact heq'

theorem Tracked.fresh (h : Tracked crc s L chain) (hp : Spare s p) (hunused : L.kind p = .none) :
    Fresh s chain p := by
  refine ⟨hp.two_le, ?_, h.not_queue hp.two_le (by simp [hunused]), hp.not_table⟩
  by_contra halloc
  simp [(h.inv.client p halloc).1] at hunused

structure Hands (crc : Words → UInt32) (s : Session) (L : Layout) (chain : List Nat) (new : List Nat) (s' : Session) :
    Prop where
  fresh : ∀ q ∈ new, Fresh s chain q
  tracked : ∃ L' chain', L.Extends L' ∧ Tracked crc s' L' chain'

theorem Tracked.scan (h : Tracked crc s L chain) {count : Nat} (hcount : 0 < count)
    (hclear : ∀ start, FirstRun s.backend count start → ∀ j < count, Spare s (start + j)) (n : Nat) :
    storageAllocateCountScan count (n + 1) s.backend = (none, s.backend) ∨
      ∃ start b', storageAllocateCountScan count (n + 1) s.backend = (some start, b') ∧
        Hands crc s L chain (List.range' start count) ⟨b', own s.pages (List.range' start count)⟩ := by
  cases hfind : findRun s.backend count (totalEntries s.backend - 2) 2 0 0 with
  | none => exact .inl (by rw [storageAllocateCountScan, hfind])
  | some start =>
    have hfirst := findRun_first h.inv.table.size hcount hfind
    have hspare := hclear start hfirst
    have hunused : ∀ j < count, L.kind (start + j) = .none := fun j hj =>
      h.unused (hspare j hj) (hfirst.free j hj)
    -- the last entry of the table is kept for the next overflow page
    have hlast : start + count < totalEntries s.backend := by
      have hne := (hspare (count - 1) (by omega)).not_table s.backend.overflowCount
      have htotal := totalEntries_eq (b := s.backend) h.inv.table.size
      have hle := hfirst.le_total
      omega
    have hadjust := h.adjust (Nat.le_max_left _ (start + count)) (Nat.max_lt.2 ⟨h.inv.table.room, hlast⟩) 0
    rw [Nat.zero_mul, Nat.add_zero] at hadjust
    obtain ⟨b', L', heq, h', hext⟩ := hadjust.claimRun count hunused (Nat.le_max_right _ _)
    rw [claimRun_totalPages] at heq
    obtain ⟨hok, hb'⟩ := Prod.mk.inj heq
    obtain ⟨b1, hb1⟩ : ∃ b1, (Storage.claimRun count start s.backend).2 = b1 := ⟨_, rfl⟩
    have hrun : Storage.claimRun count start s.backend = (true, b1) := Prod.ext hok hb1
    have hpages : b1.totalPages = s.backend.totalPages := by
      have := congrArg (fun r => r.2.totalPages) (claimRun_totalPages s.backend.totalPages count start s.backend)
      rw [← hb1]
      exact this
    have hscan : storageAllocateCountScan count (n + 1) s.backend = (some start, b') := by
      simp only [storageAllocateCountScan, hfind, hrun, hpages]
      rw [hb1] at hb'
      rw [← hb']
    refine .inr ⟨start, b', hscan, fun q hq => ?_, L', chain, hext, h'⟩
    obtain ⟨j, hj, rfl⟩ := List.mem_range'.1 hq
    rw [Nat.one_mul]
    exact h.fresh (hspare j hj) (hunused j hj)

theorem Tracked.reach (h : Tracked crc s L chain) (r n : Nat)
    (hclear : indirLookup s.backend p = 0 → Spare s p) :
    ∃ b1 L1, (if (totalEntries s.backend : Int) ≤ p then growTable r n s.backend else s.backend) = b1 ∧
      b1.pageSize = s.backend.pageSize ∧ L.Extends L1 ∧ Tracked crc ⟨b1, s.pages⟩ L1 chain ∧
      (indirLookup b1 p = 0 → Fresh s chain p ∧ L1.kind p = .none) := by
  by_cases hout : (totalEntries s.backend : Int) ≤ p
  · rw [if_pos hout]
    obtain ⟨L1, h1, hg⟩ := h.grow r n
    refine ⟨_, L1, rfl, hg.same.pageSize, hg.ext, h1, fun hzero => ?_⟩
    have hlook : indirLookup s.backend p = 0 := by
      rw [indirLookup, if_neg (by omega), if_neg (by omega)]
    have hunused := h.unused (hclear hlook) hlook
    refine ⟨h.fresh (hclear hlook) hunused, (hg.others p hunused).resolve_right fun hk => ?_⟩
    exact h1.inv.table.table_live p hk hzero
  · rw [if_neg hout]
    refine ⟨_, L, rfl, rfl, .refl L, h, fun hzero => ?_⟩
    have hunused := h.unused (hclear hzero) hzero
    exact ⟨h.fresh (hclear hzero) hunused, hunused⟩

theorem Tracked.acquire (h : Tracked crc s L chain)
    (hclear : indirLookup s.backend p = 0 → Spare s p) :
    (∃ b', storageAcquire s.backend p = (false, b') ∧ Hands crc s L chain [] ⟨b', s.pages⟩) ∨
      ∃ b', storageAcquire s.backend p = (true, b') ∧ Hands crc s L chain [p] ⟨b', own s.pages [p]⟩ := by
  rw [storageAcquire, if_neg (by omega)]
  generalize hr : (s.backend.totalPages + ((p : Int) - totalEntries s.backend + 1).bmod (2 ^ 32)).toNat = r
  obtain ⟨b1, L1, heq, hsize, hext, h1, hfresh⟩ := h.reach r (r + 1) hclear
  simp only [heq, Int.toNat_natCast]
  by_cases hlook : indirLookup b1 p = 0
  · obtain ⟨hnew, hunused⟩ := hfresh hlook
    rw [if_neg (not_not.2 hlook)]
    by_cases hlt : p < totalEntries b1
    · have hlast : p + 1 < totalEntries b1 := by
        have hne := hnew.not_table b1.overflowCount
        rw [← hsize] at hne
        have htotal := totalEntries_eq (b := b1) h1.inv.table.size
        omega
      have hadjust := h1.adjust (Nat.le_max_left _ (p + 1)) (Nat.max_lt.2 ⟨h1.inv.table.room, hlast⟩) 0
      rw [Nat.zero_mul, Nat.add_zero] at hadjust
      obtain ⟨b', L', hclaim, h', hc, -⟩ := hadjust.claim (p := p) hunused (Nat.le_max_right _ _)
      have hpages := tryClaimEntry_pages (max b1.totalPages (p + 1))
        { b1 with physicalTail := b1.physicalTail + physRecordSize b1 } p b1.physicalTail
      obtain ⟨b3, hb3, hb'⟩ := Option.map_eq_some_iff.1 (hpages.symm.trans hclaim)
      refine .inr ⟨b', ?_, ⟨by simpa using hnew, L', chain, hext.trans hc.ext, h'⟩⟩
      rw [hb3]
      simp only [tryClaimEntry_totalPages hb3, ← hb']
    · have hclaim : tryClaimEntry { b1 with physicalTail := b1.physicalTail + physRecordSize b1 } p b1.physicalTail =
          none := (if_neg (not_not.2 hlook)).trans (if_neg hlt)
      have hadjust := h1.adjust (Nat.le_refl _) h1.inv.table.room 1
      rw [Nat.one_mul] at hadjust
      rw [hclaim]
      exact .inl ⟨_, rfl, by simp, L1, chain, hext, hadjust⟩
  · rw [if_pos hlook]
    exact .inl ⟨_, rfl, by simp, L1, chain, hext, h1⟩

theorem Given.tracked {b' : Backend} {chain' : List Nat} {q : Nat} (hgiven : Given crc s b' L L' chain chain' q)
    (h : Tracked crc s L chain) : Tracked crc ⟨b', Function.update s.pages q (some none)⟩ L' chain' := by
  have hq := hgiven.healthy.inv.client q (by simp)
  have hused : ∀ p, p ≠ q → L'.kind p ≠ .none → L'.kind p ≠ .table → L.kind p ≠ .none := by
    intro p hne hsome htable hnone
    exact (hgiven.old p hnone hne).elim hsome htable
  refine ⟨hgiven.healthy, fun p htwo hp hlook => ?_, fun p hp => ?_⟩
  · have hne : p ≠ q := by
      rintro rfl
      exact hq.2 hlook
    have hk : L.kind p = .client := (hgiven.ext.used p (hused p hne (by simp [hp]) (by simp [hp]))).1.symm.trans hp
    obtain ⟨x, hx, rfl⟩ := h.listed p htwo hk ((hgiven.look p ⟨htwo, .inl hk⟩ hne).symm.trans hlook)
    exact ⟨x, hgiven.waiting x hx hne, rfl⟩
  · have hne : p ≠ q := by
      rintro rfl
      simp [hq.1] at hp
    exact h.header p ((hgiven.ext.used p (hused p hne (by simp [hp]) (by simp [hp]))).1.symm.trans hp)

theorem Released.tracked {s' : Session} {chain' : List Nat} (hrel : Released crc s s' L L' chain chain' p)
    (h : Tracked crc s L chain) : Tracked crc s' L' chain' := by
  have hused : ∀ x, L'.kind x ≠ .none → L'.kind x ≠ .queue → L'.kind x ≠ .table → L.kind x ≠ .none := by
    intro x hsome hqueue htable hnone
    obtain hk | hk | hk := hrel.old x hnone <;> contradiction
  refine ⟨hrel.healthy, fun x htwo hx hlook => ?_, fun x hx => ?_⟩
  · have hk := hused x (by simp [hx]) (by simp [hx]) (by simp [hx])
    rw [hrel.waiting]
    by_cases hxp : x = p
    · exact ⟨(p, L.home p), by simp, hxp.symm⟩
    · obtain ⟨y, hy, rfl⟩ := h.listed x htwo ((hrel.ext.used x hk).1.symm.trans hx)
        ((hrel.look x hk hxp).symm.trans hlook)
      exact ⟨y, List.mem_append_left _ hy, rfl⟩
  · exact h.header x ((hrel.ext.used x (hused x (by simp [hx]) (by simp [hx]) (by simp [hx]))).1.symm.trans hx)

theorem newSession_tracked {pageSize : Nat} (hsize : 120 ≤ pageSize) :
    Tracked crc (newSession crc pageSize) (newLayout pageSize) [] := by
  have h : Healthy crc (newSession crc pageSize) (newLayout pageSize) [] := newSession_healthy hsize
  refine ⟨h, fun p htwo hp _ => ?_, fun p hp => ?_⟩
  · have hused : (newLayout pageSize).kind p ≠ .none := by simp [hp]
    obtain rfl | rfl := newLayout_used hused <;> omega
  · have hused : (newLayout pageSize).kind p ≠ .none := by simp [hp]
    obtain rfl | rfl := newLayout_used hused
    · rfl
    · rw [h.inv.table.superblock.1] at hp
      cases hp

/-- **Step lemma.** -/
theorem Tracked.call (h : Tracked crc s L chain) {c : PageCall} (hclear : c.Clear s) :
    Hands crc s L chain (pageCall crc s c).1 (pageCall crc s c).2 := by
  cases c with
  | allocate count =>
    by_cases hpos : count ≤ 0
    · rw [pageCall, storageAllocatePages, if_pos hpos]
      exact ⟨by simp, L, chain, .refl L, h⟩
    · by_cases hmany : 1 < count
      · rw [pageCall, storageAllocatePages, if_neg hpos, if_pos hmany]
        have hcount : 0 < count.toNat := by omega
        obtain heq | ⟨start, b', heq, hhands⟩ := h.scan hcount (hclear hmany) 999
        · rw [heq]
          exact ⟨by simp, L, chain, .refl L, h⟩
        · rw [heq]
          exact hhands
      · obtain rfl : count = 1 := by omega
        obtain ⟨q, b', L', chain', heq, hgiven⟩ := h.allocate
        rw [pageCall, storageAllocatePages, if_neg hpos, if_neg hmany, heq]
        exact ⟨by simpa [List.range'] using hgiven.fresh, L', chain', hgiven.ext, hgiven.tracked h⟩
  | acquire page =>
    by_cases hneg : page < 0
    · rw [pageCall, storageAcquire, if_pos hneg]
      exact ⟨by simp, L, chain, .refl L, h⟩
    · obtain ⟨p, rfl⟩ := Int.eq_ofNat_of_zero_le (Int.not_lt.1 hneg)
      obtain ⟨b', heq, hhands⟩ | ⟨b', heq, hhands⟩ := h.acquire (hclear (Int.natCast_nonneg p))
      · rw [pageCall, heq]
        exact hhands
      · rw [pageCall, heq]
        exact hhands
  | free page =>
    obtain ⟨L', chain', hrel⟩ := h.free hclear.1 hclear.2
    exact ⟨by simp [pageCall], L', chain', hrel.ext, hrel.tracked h⟩

theorem spare_of_empty (hhead : s.backend.freeListHead = 0) (htwo : 2 ≤ p)
    (huncached : (s.backend.cache p).isNone) (hinline : p + 1 < inlineEntryCount s.backend.pageSize) :
    Spare s p := by
  refine ⟨htwo, ?_, Option.isNone_iff_eq_none.1 huncached, fun i hi => ?_⟩
  · rintro ⟨chain, hlinked, x, hx, -⟩
    cases chain with
    | nil => simp [queued] at hx
    | cons q chain => exact hlinked.2.1 (hlinked.1.symm.trans hhead)
  · rw [overflowLogical] at hi
    omega

end Pages

/-- **Pages are fresh where the table says so.** In every run of single pages, runs of pages, pages by number and
frees in which no free page is taken that waits, is cached or is the place of an overflow page: no allocated page is
a page of the free list, waits on it or is the place of an overflow page; a page that the next call hands out was
none of these and not allocated; and every page that stays allocated keeps its entry. -/
theorem page_calls_fresh {crc : Words → UInt32} {pageSize : Nat} (hsize : 120 ≤ pageSize) (calls : List PageCall)
    (hrun : Run.AllSteps (pageStep crc) (fun s c => c.Clear s) (newSession crc pageSize) calls) :
    let s := calls.foldl (pageStep crc) (newSession crc pageSize)
    ∃ chain, Linked.Chain (queueNext s.backend.cache) 0 s.backend.freeListHead chain ∧
      (∀ q, 2 ≤ q → s.pages q ≠ none → (q ∉ chain ∧ q ≠ s.backend.freeListTail) ∧
        (∀ x ∈ queued s.backend.cache chain, x.1 ≠ q) ∧ ∀ i, q ≠ overflowLogical s.backend.pageSize i) ∧
      ∀ c : PageCall, c.Clear s → (∀ q ∈ (pageCall crc s c).1, Fresh s chain q) ∧
        ∀ q : Nat, s.pages q ≠ none → (pageStep crc s c).pages q ≠ none →
          indirLookup (pageStep crc s c).backend q = indirLookup s.backend q := by
  obtain ⟨L, chain, h⟩ : ∃ L chain, Tracked crc (calls.foldl (pageStep crc) (newSession crc pageSize)) L chain := by
    refine Run.invariant (fun s => ∃ L chain, Tracked crc s L chain) ?_ ⟨_, _, newSession_tracked hsize⟩ hrun
    rintro s c ⟨L, chain, hs⟩ hclear
    obtain ⟨-, L', chain', -, h'⟩ := hs.call hclear
    exact ⟨L', chain', h'⟩
  refine ⟨chain, h.linked, fun q htwo hq => ?_, fun c hclear => ?_⟩
  · obtain ⟨hk, hlook⟩ := h.inv.client q hq
    refine ⟨h.not_queue htwo (by simp [hk]), ?_, h.inv.not_table hk⟩
    rintro x hx rfl
    exact hlook (h.queue.free x (queued_congr h.loaded ▸ hx))
  · obtain ⟨hfresh, L', chain', hext, h'⟩ := h.call hclear
    refine ⟨hfresh, fun q hq hq' => ?_⟩
    -- both entries are the page's home
    obtain ⟨hk, hlook⟩ := h.inv.client q hq
    obtain ⟨-, hlook'⟩ := h'.inv.client q hq'
    rw [pageStep, (h'.inv.table.entry q hlook').1, (h.inv.table.entry q hlook).1]
    exact (hext.used q (by simp [hk])).2

theorem page_calls_fresh_run :
    let s := [PageCall.allocate 1, .acquire 9].foldl (pageStep wordSum) (newSession wordSum 512)
    (pageCall wordSum s (.allocate 2)).1 = [3, 4] ∧ ∃ chain, Fresh s chain 3 ∧ Fresh s chain 4 := by
  have hrun : Run.AllSteps (pageStep wordSum) (fun s c => c.Clear s) (newSession wordSum 512)
      [PageCall.allocate 1, .acquire 9] := by
    refine ⟨fun h => absurd h (by decide), fun _ _ => ?_, trivial⟩
    exact spare_of_empty (by decide +kernel) (by decide) (by decide +kernel) (by decide +kernel)
  have hfacts : let s := [PageCall.allocate 1, .acquire 9].foldl (pageStep wordSum) (newSession wordSum 512)
      (pageCall wordSum s (.allocate 2)).1 = [3, 4] ∧ s.backend.freeListHead = 0 ∧
        indirLookup s.backend (2 + 0 : Nat) ≠ 0 ∧ (∀ j < 2, indirLookup s.backend (3 + j : Nat) = 0) ∧
        ∀ j < 2, (s.backend.cache (3 + j)).isNone ∧ 3 + j + 1 < inlineEntryCount s.backend.pageSize := by
    decide +kernel
  obtain ⟨chain, -, -, hcall⟩ := page_calls_fresh (by decide) _ hrun
  obtain ⟨hnew, hhead, htaken, hfree, hroom⟩ := hfacts
  -- pages 3 and 4 are the first two in a row
  obtain ⟨hfresh, -⟩ := hcall (.allocate 2) fun _ start hstart => by
    have hle : start ≤ 3 := by
      by_contra hlt
      obtain ⟨j, hj, hne⟩ := hstart.first 3 (by decide) (Nat.not_le.1 hlt)
      exact hne (hfree j hj)
    have hne : start ≠ 2 := by
      rintro rfl
      exact htaken (hstart.free 0 (by decide))
    obtain rfl : start = 3 := by
      have := hstart.two_le
      omega
    exact fun j hj => spare_of_empty hhead (by omega) (hroom j hj).1 (hroom j hj).2
  rw [hnew] at hfresh
  exact ⟨hnew, chain, hfresh 3 (by simp), hfresh 4 (by simp)⟩

end Storage
end SphereVFS
