import SphereVFS.StorageFlush
import SphereVFS.Lib.Run

/-!
# SphereVFS.StorageRefine

The storage backend and independent pages: what a client reads from a page is what it wrote to that
page last, whatever happened to other pages and to earlier owners of the page.

This holds as long as the queue is sound before every call. The backend does not keep the queue
sound: taking a page lowers the count of the head page in the cache without marking the page dirty,
so a queue page that leaves the cache comes back with the entries that were already taken.
-/

namespace SphereVFS
namespace Storage

open Mirror

/-! ## Freeing a page -/

section Free

variable {crc : Words → UInt32} {b : Backend} {pages : Nat → Option (Option Words)} {L : Layout}

theorem writeFreeList_cached {p : Nat} {e : CacheEntry} (he : b.cache p = some e)
    (f : Words → Words) :
    writeFreeList crc b p f = { b with
      cache := Function.update b.cache p (some ⟨f e.payload, .pool, true⟩) } := by
  simp [writeFreeList, storageRead_cached he, cacheModify, he]

theorem Inv.queueInsert (h : Inv crc b pages L) {p : Nat} (hk : L.kind p = .queue)
    {e : CacheEntry} (hq : QueuePage L p e.payload) {cached : List Nat}
    (hcached : ∀ x, x = p ∨ x ∈ b.cached → x ∈ cached) :
    Inv crc { b with cached := cached, cache := Function.update b.cache p (some e) } pages L := by
  apply h.withCache
  · constructor
    · intro x e' he'
      by_cases hx : x = p
      · exact hcached x (.inl hx)
      · rw [Function.update_of_ne hx] at he'
        exact hcached x (.inr (h.cache.listed x e' he'))
    · intro x e' he'
      by_cases hx : x = p
      · subst hx
        rw [Function.update_self] at he'
        cases he'
        exact .inr ⟨hk, hq⟩
      · rw [Function.update_of_ne hx] at he'
        exact h.cache.kind x e' he'
  · intro x w hx
    have hxp : x ≠ p := by
      rintro rfl
      simp [h.pages_of_queue hk] at hx
    simp only [Function.update_of_ne hxp]
    exact h.content x w hx

theorem QueuePage.append {p q i : Nat} {w : Words} (hw : QueuePage L p w) (hi : w 1 = i)
    (hq : L.WasClient q) :
    QueuePage L p (Function.update (Function.update (Function.update w (2 + 2 * i) q)
      (3 + 2 * i) (L.home q)) 1 (i + 1)) := by
  constructor
  · have h2 : (0 : Nat) ≠ 2 + 2 * i := by omega
    have h3 : (0 : Nat) ≠ 3 + 2 * i := by omega
    simpa [Function.update_of_ne h2, Function.update_of_ne h3] using hw.next
  · intro j hj
    rw [Function.update_self] at hj
    have hone : 2 + 2 * j ≠ 1 := by omega
    have hone' : 3 + 2 * j ≠ 1 := by omega
    have hpar : 2 + 2 * j ≠ 3 + 2 * i := by omega
    have hpar' : 3 + 2 * j ≠ 2 + 2 * i := by omega
    simp only [Function.update_of_ne hone, Function.update_of_ne hone', Function.update_of_ne hpar]
    by_cases hji : j = i
    · subst hji
      simpa using hq
    · have hne : 2 + 2 * j ≠ 2 + 2 * i := by omega
      have hne' : 3 + 2 * j ≠ 3 + 2 * i := by omega
      simp only [Function.update_of_ne hne, Function.update_of_ne hne', Function.update_of_ne hpar']
      exact hw.entry j (by omega)

def newQueuePage (logical offset : Nat) : Words :=
  Function.update (Function.update (Function.update (Function.update (fun _ => 0) 0 0) 1 1)
    (2 + 2 * 0) logical) (3 + 2 * 0) offset

theorem allocFreeListPage_eq {b1 : Backend} {page logical offset : Nat}
    (htail : storageAllocateTailAdvance b = (some page, b1)) (hnone : b1.cache page = none) :
    allocFreeListPage crc b logical offset = (some page, { b1 with
      cached := page :: b1.cached
      cache := Function.update b1.cache page
        (some ⟨newQueuePage logical offset, .pool, true⟩) }) := by
  have hwrite : ∀ (w : Words) (f : Words → Words),
      writeFreeList crc { b1 with
        cached := page :: b1.cached
        cache := Function.update b1.cache page (some ⟨w, .pool, true⟩) } page f = { b1 with
        cached := page :: b1.cached
        cache := Function.update b1.cache page (some ⟨f w, .pool, true⟩) } := by
    intro w f
    rw [writeFreeList_cached (e := ⟨w, .pool, true⟩) (Function.update_self ..)]
    simp
  have hinsert : cacheInsert b1 page (fun _ => 0) .pool true = { b1 with
      cached := page :: b1.cached
      cache := Function.update b1.cache page (some ⟨fun _ => 0, .pool, true⟩) } := by
    simp only [cacheInsert, hnone]
  simp only [allocFreeListPage, htail, hinsert, writeFreeListNext, writeFreeListCount,
    writeFreeListEntry, hwrite]
  rfl

theorem newQueuePage_ok {page q : Nat} (hq : L.WasClient q) :
    QueuePage L page (newQueuePage q (L.home q)) := by
  constructor
  · simp [newQueuePage]
  · intro i hi
    have h0 : i = 0 := by simpa [newQueuePage] using hi
    subst h0
    simpa [newQueuePage] using hq

theorem Inv.allocFreeListPage (h : Inv crc b pages L) {q : Nat} (hq : L.WasClient q) :
    ∃ page b' L', Storage.allocFreeListPage crc b q (L.home q) = (some page, b') ∧
      Inv crc b' pages L' ∧ L.Extends L' ∧ L'.kind page = .queue ∧ b.totalPages ≤ page := by
  obtain ⟨page, b1, L1, htail, ht⟩ := h.tailAdvance (k := .queue) (.inr rfl)
  have hnone : b1.cache page = none := by
    rw [ht.same.cache]
    refine h.uncached ?_ (by simp [ht.unused])
    by_contra hp
    have := (h.client page hp).1
    simp [ht.unused] at this
  have hpage : QueuePage L1 page (newQueuePage q (L1.home q)) :=
    newQueuePage_ok (ht.ext.wasClient hq)
  rw [(ht.ext.used q hq.used).2] at hpage
  have hinv := ht.inv.queueInsert ht.kind (e := ⟨_, .pool, true⟩) hpage
    (fun x hx => List.mem_cons.2 hx)
  exact ⟨page, _, L1, allocFreeListPage_eq htail hnone, hinv, ht.ext, ht.kind, ht.ge⟩

theorem Inv.setQueueTail (h : Inv crc b pages L) {tail : Nat} (hk : L.kind tail = .queue) :
    Inv crc (setQueueTail b tail) pages L := by
  refine { h with head := ?_, tail := .inr hk }
  show (if b.freeListHead = 0 then tail else b.freeListHead) = 0 ∨ _
  simp only [Storage.setQueueTail]
  split
  · exact .inr hk
  · exact h.head

theorem Inv.writeFreeListNext (h : Inv crc b pages L) {p next : Nat} (hk : L.kind p = .queue)
    (hnext : p < next ∧ L.kind next = .queue) :
    Inv crc (writeFreeListNext crc b p next) pages L := by
  rw [Storage.writeFreeListNext]
  obtain ⟨-, r, hr, hread⟩ | ⟨e, cached, cache, -, hread, h1, he, -, hpage⟩ := h.storageRead_queue hk
  · cases r with
    | ok w => exact absurd rfl (hr w)
    | notFound => simpa [writeFreeList, hread] using h
    | ioError => simpa [writeFreeList, hread] using h
    | crcError => simpa [writeFreeList, hread] using h
  · simp only [writeFreeList, hread]
    refine h1.queueModify hk fun e' he' => ⟨.inr (by simpa using hnext), fun i hi => ?_⟩
    replace he' : cache p = some e' := he'
    rw [he] at he'
    cases he'
    have h1 : (1 : Nat) ≠ 0 := by omega
    have h2 : 2 + 2 * i ≠ 0 := by omega
    have h3 : 3 + 2 * i ≠ 0 := by omega
    simp only [Function.update_of_ne h1, Function.update_of_ne h2, Function.update_of_ne h3]
      at hi ⊢
    exact hpage.entry i hi

theorem Inv.newTail (h : Inv crc b pages L) {q tail : Nat} (hq : L.WasClient q)
    (ht : tail = 0 ∨ L.kind tail = .queue) :
    ∃ L', Inv crc (enqueueFreePage.newTail crc q (L.home q) b tail) pages L' := by
  obtain ⟨page, b1, L1, heq, h1, hext, hk, hge⟩ := h.allocFreeListPage hq
  refine ⟨L1, ?_⟩
  simp only [enqueueFreePage.newTail, heq]
  refine Inv.setQueueTail ?_ hk
  split
  · exact h1
  · next hne =>
    have hkt := ht.resolve_left hne
    have hkt1 : L1.kind tail = .queue := by rw [(hext.used tail (by simp [hkt])).1, hkt]
    exact h1.writeFreeListNext hkt1 ⟨Nat.lt_of_lt_of_le (h.queue_lt hkt) hge, hk⟩

theorem Inv.enqueueFreePage (h : Inv crc b pages L) {q : Nat} (hq : L.WasClient q) :
    ∃ L', Inv crc (enqueueFreePage crc b q (L.home q)) pages L' := by
  by_cases h0 : b.freeListTail = 0
  · simp only [Storage.enqueueFreePage, if_pos h0]
    exact h.newTail hq h.tail
  have hk := h.tail.resolve_left h0
  obtain ⟨-, r, hr, hread⟩ | ⟨e, cached, cache, -, hread, h1, he, -, hpage⟩ := h.storageRead_queue hk
  · have hcount : readFreeListCount crc b b.freeListTail = (none, b) := by
      rw [readFreeListCount, hread]
      cases r with
      | ok w => exact absurd rfl (hr w)
      | notFound => rfl
      | ioError => rfl
      | crcError => rfl
    simp only [Storage.enqueueFreePage, if_neg h0, hcount]
    exact h.newTail hq h.tail
  · have hcount : readFreeListCount crc b b.freeListTail =
        (some (e.payload 1), { b with cached := cached, cache := cache }) := by
      rw [readFreeListCount, hread]
    simp only [Storage.enqueueFreePage, if_neg h0, hcount]
    split
    · -- the entry, then the count of the tail page
      refine ⟨L, Inv.setQueueTail ?_ hk⟩
      have he1 : ({ b with cached := cached, cache := cache } : Backend).cache b.freeListTail =
          some e := he
      rw [writeFreeListEntry, writeFreeListCount, writeFreeList_cached he1,
        writeFreeList_cached (Function.update_self ..)]
      simp only [Function.update_idem]
      exact h1.queueInsert hk (hpage.append rfl hq)
        fun x hx => hx.elim (fun hx => hx ▸ h1.cache.listed _ e he) id
    · exact h1.newTail hq h.tail

end Free

/-! ## One call -/

section Calls

variable {crc : Words → UInt32} {b : Backend} {pages : Nat → Option (Option Words)} {L : Layout}

theorem Inv.own {q : Nat} (h : Inv crc b pages L) (hkind : L.kind q = .client)
    (hentry : indirLookup b q ≠ 0) : Inv crc b (Function.update pages q (some none)) L := by
  have hold : ∀ p, p ≠ q → Function.update pages q (some none) p = pages p :=
    fun p hp => Function.update_of_ne hp _ _
  refine { h with cache := ⟨h.cache.listed, ?_⟩, content := ?_, client := ?_ }
  · intro p e he
    by_cases hp : p = q
    · simp [hp]
    · rw [hold p hp]
      exact h.cache.kind p e he
  · intro p w hw
    by_cases hp : p = q
    · simp [hp] at hw
    · rw [hold p hp] at hw
      exact h.content p w hw
  · intro p hpp
    by_cases hp : p = q
    · rw [hp]
      exact ⟨hkind, hentry⟩
    · rw [hold p hp] at hpp
      exact h.client p hpp

theorem Inv.storageWrite (h : Inv crc b pages L) {p : Nat} (hp : pages p ≠ none) (w : Words)
    (pr : Priority) :
    Inv crc (storageWrite b p w pr) (Function.update pages p (some (some w))) L := by
  have hold : ∀ x, x ≠ p → Function.update pages p (some (some w)) x = pages x :=
    fun x hx => Function.update_of_ne hx _ _
  have hclient : ∀ x, Function.update pages p (some (some w)) x ≠ none → pages x ≠ none := by
    intro x hx
    by_cases hxp : x = p
    · exact hxp ▸ hp
    · rwa [hold x hxp] at hx
  obtain ⟨cached, d, heq, hcached⟩ : ∃ cached d, cacheInsert b p w pr true = { b with
      cached := cached
      cache := Function.update b.cache p (some ⟨w, pr, d⟩) } ∧ d = true ∧ p ∈ cached ∧
      ∀ x ∈ b.cached, x ∈ cached := by
    rw [cacheInsert]
    rcases he : b.cache p with _ | e
    · exact ⟨p :: b.cached, true, rfl, rfl, by simp, fun x hx => List.mem_cons_of_mem _ hx⟩
    · exact ⟨b.cached, e.dirty || true, rfl, by simp, h.cache.listed p e he, fun _ hx => hx⟩
  obtain ⟨rfl, hmem, hsub⟩ := hcached
  rw [Storage.storageWrite, heq]
  refine { h with cache := ⟨?_, ?_⟩, content := ?_, client := ?_ }
  · intro x e he
    by_cases hx : x = p
    · exact hx ▸ hmem
    · simp only [Function.update_of_ne hx] at he
      exact hsub x (h.cache.listed x e he)
  · intro x e he
    by_cases hx : x = p
    · simp [hx]
    · simp only [Function.update_of_ne hx] at he
      rw [hold x hx]
      exact h.cache.kind x e he
  · intro x v hv
    by_cases hx : x = p
    · subst hx
      simp only [Function.update_self, Option.some.injEq] at hv
      subst hv
      simp
    · rw [hold x hx] at hv
      simp only [Function.update_of_ne hx]
      exact h.content x v hv
  · exact fun x hx => h.client x (hclient x hx)

theorem Inv.released (h : Inv crc b pages L) {p : Nat} (hp : pages p ≠ none) (htwo : 2 ≤ p) :
    Inv crc { cacheInvalidate b p with entries := Function.update b.entries p 0 }
        (Function.update pages p none) L ∧
      storageFree crc b p = Storage.enqueueFreePage crc
        { cacheInvalidate b p with entries := Function.update b.entries p 0 } p (L.home p) := by
  obtain ⟨hk, hlook⟩ := h.client p hp
  have hused : L.kind p ≠ .none := by simp [hk]
  have hold : ∀ x, x ≠ p → Function.update pages p none x = pages x :=
    fun x hx => Function.update_of_ne hx _ _
  have hne : ∀ x, Function.update pages p none x ≠ none → x ≠ p := by
    rintro x hx rfl
    simp at hx
  -- the page goes out of the cache and out of the client's hands
  have h1 : Inv crc (cacheInvalidate b p) (Function.update pages p none) L := by
    refine { h with cache := ⟨?_, ?_⟩, content := ?_, client := ?_ }
    · intro x e he
      have hx : x ≠ p := by
        rintro rfl
        simp [cacheInvalidate] at he
      simp only [cacheInvalidate, Function.update_of_ne hx] at he ⊢
      exact (List.mem_erase_of_ne hx).2 (h.cache.listed x e he)
    · intro x e he
      have hx : x ≠ p := by
        rintro rfl
        simp [cacheInvalidate] at he
      simp only [cacheInvalidate, Function.update_of_ne hx] at he ⊢
      exact h.cache.kind x e he
    · intro x w hw
      have hx := hne x (by simp [hw])
      rw [hold x hx] at hw
      simp only [cacheInvalidate, Function.update_of_ne hx]
      exact h.content x w hw
    · intro x hx
      rw [hold x (hne x hx)] at hx
      exact h.client x hx
  refine ⟨h1.setEntry hused (.inr ⟨rfl, by simp, .inl hk⟩), ?_⟩
  rw [Storage.storageFree, if_neg (by omega), if_neg hlook, h.indirSet_eq hused,
    (h.table.entry p hlook).1]
  rfl

theorem Inv.storageFree (h : Inv crc b pages L) {p : Nat} (hp : pages p ≠ none) (htwo : 2 ≤ p) :
    ∃ L', Inv crc (storageFree crc b p) (Function.update pages p none) L' := by
  obtain ⟨h1, heq⟩ := h.released hp htwo
  rw [heq]
  exact h1.enqueueFreePage ⟨htwo, .inl (h.client p hp).1⟩

/-- `storage_read_with_status` of a page the client has: the invariant stays, and a page that was
written reads as what was written. -/
theorem Inv.storageRead (h : Inv crc b pages L) {p : Nat} (hp : pages p ≠ none) :
    Inv crc (storageRead crc b p).2 pages L ∧
      ∀ w, pages p = some (some w) → (storageRead crc b p).1 = .ok w := by
  rcases he : b.cache p with _ | e
  · have hlook := (h.client p hp).2
    have hoff : physicalOffset b p = L.home p := h.offset hlook
    have hval : ∀ w, pages p = some (some w) →
        mirrorRead crc (indirLookup b) b.disk (L.home p) = .ok w :=
      fun w hw => (h.content p w hw).2 (by simp [he])
    rcases hread : mirrorRead crc (indirLookup b) b.disk (L.home p) with v | _ | _
    · have heq : Storage.storageRead crc b p = (.ok v, cacheInsert b p v .data false) := by
        simp [Storage.storageRead, he, hlook, hoff, hread]
      rw [heq]
      refine ⟨h.cacheRead he hread (.inl hp), fun w hw => ?_⟩
      have := hval w hw
      rw [hread, ReadStatus.ok.injEq] at this
      rw [this]
    · have heq : Storage.storageRead crc b p = (.ioError, b) := by
        simp [Storage.storageRead, he, hlook, hoff, hread]
      rw [heq]
      refine ⟨h, fun w hw => ?_⟩
      simp [hval w hw] at hread
    · have heq : Storage.storageRead crc b p = (.crcError, b) := by
        simp [Storage.storageRead, he, hlook, hoff, hread]
      rw [heq]
      refine ⟨h, fun w hw => ?_⟩
      simp [hval w hw] at hread
  · rw [storageRead_cached he]
    exact ⟨h, fun w hw => by rw [(h.content p w hw).1 e he]⟩

end Calls

/-! ## Runs -/

section Runs

variable (crc : Words → UInt32)

def Call.Names (pages : Nat → Option (Option Words)) : Call → Bool
  | .allocate => true
  | .write p _ _ => (pages p).isSome
  | .free p => decide (2 ≤ p) && (pages p).isSome
  | .flush => true
  | .evictAll => true
  | .read p => (pages p).isSome

def peakCached (s : Session) : Call → Nat
  | .evictAll => (cacheFlushAll crc s.backend).cached.length
  | c => (step crc s c).backend.cached.length

/-- The condition on a call: the queue is sound before it, it names pages of the client, and it
stays within the limits of the format and of the cache. Generations are 32 bits wide, the number of
a sibling is a signed 32-bit field, and at `CACHE_DEFAULT_MAX` pages the cache starts to evict. -/
structure StepOk (s : Session) (c : Call) : Prop where
  queue : QueueSound crc s.backend
  names : c.Names s.pages = true
  generation : ∀ p < s.backend.totalPages,
    (currentHeader s.backend.disk (physicalOffset s.backend p)).generation + 1 < 2 ^ 32
  pages : (step crc s c).backend.totalPages ≤ 2 ^ 31
  cached : peakCached crc s c < 65536

instance (s : Session) (c : Call) : Decidable (StepOk crc s c) :=
  decidable_of_iff (QueueSound crc s.backend ∧ c.Names s.pages = true ∧
    (∀ p < s.backend.totalPages,
      (currentHeader s.backend.disk (physicalOffset s.backend p)).generation + 1 < 2 ^ 32) ∧
    (step crc s c).backend.totalPages ≤ 2 ^ 31 ∧ peakCached crc s c < 65536)
    ⟨fun ⟨h1, h2, h3, h4, h5⟩ => ⟨h1, h2, h3, h4, h5⟩,
      fun ⟨h1, h2, h3, h4, h5⟩ => ⟨h1, h2, h3, h4, h5⟩⟩

variable {crc}

theorem Inv.generation_lt {b : Backend} {pages : Nat → Option (Option Words)} {L : Layout} (h : Inv crc b pages L)
    (hgen : ∀ p < b.totalPages, (currentHeader b.disk (physicalOffset b p)).generation + 1 < 2 ^ 32)
    {p s : Nat} (hlive : indirLookup b p ≠ 0) (hk : L.kind p ≠ .table) (hs : L.Owns p s) {ph : PageHeader}
    (hph : b.disk.hdr s = some ph) : ph.generation + 1 < 2 ^ 32 := by
  -- every page with an entry that is not of the table is below the number of pages
  have hpage : ∀ p : Nat, indirLookup b p ≠ 0 → L.kind p ≠ .table →
      (currentHeader b.disk (L.home p)).generation + 1 < 2 ^ 32 := by
    intro p hlook hk
    have hlt : p < b.totalPages := by
      by_contra hle
      exact hk (h.table.ahead p (Nat.le_of_not_lt hle) (h.table.entry p hlook).2)
    rw [← h.offset hlook]
    exact hgen p hlt
  have hbound : (currentHeader b.disk s).generation + 1 < 2 ^ 32 := by
    obtain rfl | ⟨m, hm, rfl⟩ := hs
    · exact hpage p hlive hk
    · exact hpage m (h.table.sibling_live m p hm).1 (by simp [hm])
  rwa [currentHeader, hph] at hbound

theorem Inv.genOk {b : Backend} {pages : Nat → Option (Option Words)} {L : Layout}
    (h : Inv crc b pages L) (hgen : ∀ p < b.totalPages,
      (currentHeader b.disk (physicalOffset b p)).generation + 1 < 2 ^ 32) : GenOk pages b L := by
  intro p e hp he _ s hs ph hph
  obtain ⟨hk, hlook⟩ := h.client p hp
  exact h.generation_lt hgen hlook (by simp [hk]) hs hph

theorem step_inv {s : Session} {c : Call} (h : ∃ L, Inv crc s.backend s.pages L)
    (hok : StepOk crc s c) :
    ∃ L, Inv crc (step crc s c).backend (step crc s c).pages L := by
  obtain ⟨L, h⟩ := h
  have hgen := h.genOk hok.generation
  have hpages := hok.pages
  have hnames := hok.names
  cases c with
  | allocate =>
    obtain ⟨q, b', L', heq, ha⟩ := h.storageAllocate hok.queue
    simp only [step, heq]
    exact ⟨L', ha.inv.own ha.kind ha.entry⟩
  | write p w pr =>
    exact ⟨L, h.storageWrite (by simpa [Call.Names, Option.isSome_iff_ne_none] using hnames) w pr⟩
  | free p =>
    simp only [Call.Names, Bool.and_eq_true, decide_eq_true_eq,
      Option.isSome_iff_ne_none] at hnames
    exact h.storageFree hnames.2 hnames.1
  | flush =>
    simp only [step, storageFlush] at hpages ⊢
    obtain ⟨L1, h1, hs1, -⟩ := h.cacheFlushAll hok.queue hgen
      (Nat.le_trans (flushOverflow_totalPages crc _ 0 _) hpages)
    obtain ⟨L2, h2⟩ := Inv.flushOverflow _ 0 h1 hs1 hpages
    exact ⟨L2, h2.header⟩
  | evictAll =>
    simp only [step, cacheEvictAll] at hpages ⊢
    obtain ⟨L1, h1, -, hclean⟩ := h.cacheFlushAll hok.queue hgen hpages
    exact ⟨L1, h1.evict hclean⟩
  | read p =>
    exact ⟨L, (h.storageRead (by simpa [Call.Names, Option.isSome_iff_ne_none] using hnames)).1⟩

/-! ### A new file -/

def newLayout (pageSize : Nat) : Layout where
  kind := fun p => if p = 0 then .header else if p = 1 then .client else .none
  home := fun p => if p = 1 then pageSize + pageHeaderSize else 0

theorem newLayout_used {pageSize p : Nat} (h : (newLayout pageSize).kind p ≠ .none) :
    p = 0 ∨ p = 1 := by
  by_contra hp
  obtain ⟨h0, h1⟩ := not_or.1 hp
  simp [newLayout, h0, h1] at h

theorem newLayout_kind (pageSize p : Nat) : (newLayout pageSize).kind p = .header ∨
    (newLayout pageSize).kind p = .client ∨ (newLayout pageSize).kind p = .none := by
  by_cases h0 : p = 0
  · simp [newLayout, h0]
  · by_cases h1 : p = 1
    · simp [newLayout, h1]
    · simp [newLayout, h0, h1]

theorem bootstrapNew_look {pageSize : Nat} (hsize : 120 ≤ pageSize) (p : Nat) :
    indirLookup (bootstrapNew crc pageSize) p =
      if p = 1 then pageSize + pageHeaderSize else 0 := by
  have hin := inlineEntryCount_large hsize
  have hr : 1 < totalEntries (bootstrapNew crc pageSize) := by
    simp only [totalEntries, bootstrapNew]
    omega
  rw [indirLookup_nat]
  by_cases hp : p = 1
  · subst hp
    rw [if_pos hr]
    simp [bootstrapNew]
  · simp [hp, bootstrapNew]

theorem newSession_table {pageSize : Nat} (hsize : 120 ≤ pageSize) :
    TableOk pageSize 2 (2 * (pageSize + pageHeaderSize)) 0
      (indirLookup (bootstrapNew crc pageSize)) (newLayout pageSize) := by
  have hin := inlineEntryCount_large hsize
  have hlook : ∀ p : Nat, indirLookup (bootstrapNew crc pageSize) p = _ := bootstrapNew_look hsize
  refine ⟨hsize, Nat.le_refl 2, by omega, ⟨rfl, rfl, hlook 0⟩, ⟨rfl, rfl⟩, ?_, ?_, ?_, ?_, ?_, ?_, ?_⟩
  · intro p hp
    rw [hlook] at hp ⊢
    by_cases hp1 : p = 1
    · subst hp1
      simp [newLayout]
    · simp [hp1] at hp
  · intro p q hp hq heq
    obtain rfl | rfl := newLayout_used hp <;> obtain rfl | rfl := newLayout_used hq <;>
      simp [newLayout, pageHeaderSize] at heq ⊢
  · intro p hp
    obtain rfl | rfl := newLayout_used hp
    · simp [newLayout, pageHeaderSize]
    · simp only [newLayout, pageHeaderSize, if_true]
      omega
  · intro p
    constructor
    · intro hp
      have hk := newLayout_kind pageSize p
      simp [hp] at hk
    · rintro ⟨i, hi, -⟩
      exact absurd hi (Nat.not_lt_zero i)
  · intro p hp hk
    obtain rfl | rfl := newLayout_used hk <;> omega
  · intro p hp
    have hk := newLayout_kind pageSize p
    simp [hp] at hk
  · intro p q hp
    have hk := newLayout_kind pageSize p
    simp [hp] at hk

theorem newSession_inv {pageSize : Nat} (hsize : 120 ≤ pageSize) :
    Inv crc (newSession crc pageSize).backend (newSession crc pageSize).pages
      (newLayout pageSize) := by
  have htable : TableOk pageSize 2 (2 * (pageSize + pageHeaderSize)) 0
    (indirLookup (bootstrapNew crc pageSize)) (newLayout pageSize) := newSession_table hsize
  have hkind : ∀ p, (newLayout pageSize).kind p ≠ .queue := by
    intro p hp
    have hk := newLayout_kind pageSize p
    simp [hp] at hk
  refine ⟨htable, ⟨?_, ?_, ?_⟩, ⟨?_, ?_⟩, ?_, ?_, .inl rfl, .inl rfl⟩
  · intro s hs
    have h0 : s ≠ 0 := by
      rintro rfl
      simp [newSession, bootstrapNew, pageHeaderSize] at hs
    have h1 : s ≠ pageSize + pageHeaderSize := by
      rintro rfl
      simp only [newSession, bootstrapNew, pageHeaderSize] at hs
      omega
    simp [newSession, bootstrapNew, writePageRecord, Disk.apply, Disk.empty, physRecordSize, h0, h1]
  · intro p hp ph hph
    have hne : (0 : Nat) ≠ pageSize + pageHeaderSize := by simp [pageHeaderSize]
    left
    obtain rfl | rfl := newLayout_used hp.1
    · simp [newSession, bootstrapNew, writePageRecord, Disk.apply, newLayout, physRecordSize,
        hne] at hph
      simp [← hph]
    · simp [newSession, bootstrapNew, writePageRecord, Disk.apply, newLayout,
        physRecordSize] at hph
      simp [← hph]
  · exact fun p hp => absurd hp (hkind p)
  · intro p e he
    cases he
  · intro p e he
    cases he
  · intro p w hp
    by_cases h1 : p = 1
    · simp [newSession, h1] at hp
    · simp [newSession, h1] at hp
  · intro p hp
    by_cases h1 : p = 1
    · subst h1
      refine ⟨rfl, ?_⟩
      rw [newSession, bootstrapNew_look hsize]
      simp [pageHeaderSize]
    · simp [newSession, h1] at hp

/-- Independent pages: after any run of calls that meet the condition, a page the client has written
reads as what it wrote last since it got the page. -/
theorem storage_reads_last_write {pageSize : Nat} (hsize : 512 ≤ pageSize) (calls : List Call)
    (hcalls : Run.AllSteps (step crc) (StepOk crc) (newSession crc pageSize) calls)
    {p : Nat} {w : Words}
    (hw : (run crc (newSession crc pageSize) calls).pages p = some (some w)) :
    (storageRead crc (run crc (newSession crc pageSize) calls).backend p).1 = .ok w := by
  have hinv : ∃ L, Inv crc (run crc (newSession crc pageSize) calls).backend
      (run crc (newSession crc pageSize) calls).pages L :=
    Run.invariant (fun s => ∃ L, Inv crc s.backend s.pages L)
      (fun _ _ h hok => step_inv h hok) ⟨_, newSession_inv (by omega)⟩ hcalls
  obtain ⟨L, h⟩ := hinv
  exact (h.storageRead (by simp [hw])).2 w hw

def wordSum (w : Words) : UInt32 :=
  UInt32.ofNat ((List.range 8).foldl (fun h i => h * 31 + w i) 7)

/-- The page whose first word is `n`. -/
def pageOf (n : Nat) : Words := fun k => if k = 0 then n else 0

def StorageRead.word (k : Nat) : StorageRead → Option Nat
  | .ok w => some (w k)
  | _ => none

/-- A page is freed and taken again, and its second owner reads what it wrote. -/
theorem storage_reads_after_reuse :
    (storageRead wordSum (run wordSum (newSession wordSum 512)
      [.allocate, .write 2 (pageOf 10) .data, .flush, .free 2, .allocate,
        .write 2 (pageOf 20) .data, .evictAll]).backend 2).1.word 0 = some 20 := by
  have hpage : (((run wordSum (newSession wordSum 512)
      [.allocate, .write 2 (pageOf 10) .data, .flush, .free 2, .allocate,
        .write 2 (pageOf 20) .data, .evictAll]).pages 2).bind id).map (fun w => w 0) = some 20 := by
    decide +kernel
  obtain ⟨w, hw, h20⟩ := Option.map_eq_some_iff.1 hpage
  obtain ⟨_, hw, rfl⟩ := Option.bind_eq_some_iff.1 hw
  rw [storage_reads_last_write (Nat.le_refl 512) _ (by decide +kernel) hw]
  exact congrArg some h20

/-- The queue page that names pages 2 and 3 is on disk when page 3 is taken from it, and leaves the
cache before it is written again. The next allocation takes page 3 once more, drops what its owner
wrote from the cache and fails to claim it: the owner reads what its predecessor wrote. -/
theorem stale_queue_loses_write :
    let calls : List Call := [.allocate, .allocate, .write 2 (pageOf 10) .data,
      .write 3 (pageOf 20) .data, .flush, .free 2, .free 3, .flush, .allocate, .evictAll,
      .write 3 (pageOf 30) .data, .allocate]
    let s := run wordSum (newSession wordSum 512) calls
    Run.AllSteps (step wordSum) (fun s c => c.Names s.pages = true) (newSession wordSum 512) calls ∧
      ((s.pages 3).bind id).map (fun w => w 0) = some 30 ∧
      (storageRead wordSum s.backend 3).1.word 0 = some 20 := by
  decide +kernel

end Runs

end Storage
end SphereVFS
