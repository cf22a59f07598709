import SphereVFS.StorageAlloc

/-!
# SphereVFS.StorageQueue

The free-page queue as the allocator reads it, and `storage_allocate` over it.

The queue is read through the cache, and a queue page that left the cache is read from the file
again. `QueueSound` is what the allocator needs from it: no page is named twice and no page with an
entry is named. An allocation takes the first page of the queue and leaves the others.
-/

namespace SphereVFS
namespace Storage

open Mirror

section Defs

variable (crc : Words → UInt32) (b : Backend)

def peek (page : Nat) : Option Words :=
  match storageRead crc b page with
  | (.ok w, _) => some w
  | _ => none

def loaded (page : Nat) : Option CacheEntry :=
  (b.cache page).or ((peek crc b page).map fun w => ⟨w, .data, false⟩)

/-- The pages named by the queue from queue page `page` on, in the order they are taken. -/
def queueFrom : Nat → Nat → List Nat
  | 0, _ => []
  | n + 1, page =>
    if page = 0 then []
    else
      match peek crc b page with
      | none => []
      | some w => ((List.range (w 1)).map fun i => w (2 + 2 * i)).reverse ++ queueFrom n (w 0)

def freeQueue : List Nat := queueFrom crc b b.totalPages b.freeListHead

def QueueSound : Prop :=
  b.freeListCount = 0 ∨
    (freeQueue crc b).Nodup ∧ ∀ q ∈ freeQueue crc b, indirLookup b (q : Int) = 0

instance : Decidable (QueueSound crc b) := inferInstanceAs (Decidable (_ ∨ _ ∧ _))

end Defs

section Peek

variable {crc : Words → UInt32} {b b' : Backend} {pages : Nat → Option (Option Words)} {L : Layout}

theorem peek_cached {p : Nat} {e : CacheEntry} (he : b.cache p = some e) :
    peek crc b p = some e.payload := by
  simp [peek, storageRead, he]

theorem loaded_cached {p : Nat} {e : CacheEntry} (he : b.cache p = some e) :
    loaded crc b p = some e := by
  simp [loaded, he]

theorem loaded_payload {p : Nat} {e : CacheEntry} (he : loaded crc b p = some e) :
    peek crc b p = some e.payload := by
  rcases hc : b.cache p with _ | e'
  · rw [loaded, hc, Option.none_or, Option.map_eq_some_iff] at he
    obtain ⟨w, hw, rfl⟩ := he
    exact hw
  · rw [loaded_cached hc] at he
    cases he
    exact peek_cached hc

theorem loaded_map (crc : Words → UInt32) (b : Backend) (p : Nat) :
    (loaded crc b p).map CacheEntry.payload = peek crc b p := by
  rcases hc : b.cache p with _ | e
  · rw [loaded, hc, Option.none_or, Option.map_map]
    exact Option.map_id' ..
  · rw [loaded_cached hc, peek_cached hc]
    rfl

theorem storageRead_cached {p : Nat} {e : CacheEntry} (he : b.cache p = some e) :
    storageRead crc b p = (.ok e.payload, b) := by
  simp [storageRead, he]

section Reads

variable {d : Disk Words} {s off sibOff : Nat} {ph phSib : PageHeader} {w : Words}

theorem checkedPayload_some (hr : checkedPayload crc d s ph = some w) :
    d.pay s = some w ∧ crc w = ph.checksum := by
  rw [checkedPayload] at hr
  rcases hpay : d.pay s with _ | v
  · simp [hpay] at hr
  · by_cases hc : crc v = ph.checksum <;> simp [hpay, hc] at hr
    subst hr
    exact ⟨rfl, hc⟩

theorem readSingle_ok (hr : readSingle crc d s ph = .ok w) : checkedPayload crc d s ph = some w := by
  rw [readSingle] at hr
  rw [checkedPayload]
  rcases hpay : d.pay s with _ | v
  · simp [hpay] at hr
  · by_cases hc : crc v = ph.checksum <;> simp [hpay, hc] at hr
    simp [hr, ← hc]

theorem readPair_ok (hr : readPair crc d off sibOff ph phSib = .ok w) :
    checkedPayload crc d off ph = some w ∨ checkedPayload crc d sibOff phSib = some w := by
  have hhalf : ∀ half : Nat × PageHeader, half = (off, ph) ∨ half = (sibOff, phSib) →
      checkedPayload crc d half.1 half.2 = some w →
      checkedPayload crc d off ph = some w ∨ checkedPayload crc d sibOff phSib = some w := by
    rintro half (rfl | rfl) hc
    · exact .inl hc
    · exact .inr hc
  rw [readPair] at hr
  split at hr
  · next v hv =>
    cases hr
    refine hhalf _ ?_ hv
    split <;> simp
  · split at hr
    · next v hv =>
      cases hr
      refine hhalf (if (if phSib.generation > ph.generation then (sibOff, phSib)
        else (off, ph)).1 = off then (sibOff, phSib) else (off, ph)) ?_ hv
      exact (ite_eq_or_eq ..).symm
    · cases hr

end Reads

theorem mirrorRead_payload {look : Int → Nat} {d : Disk Words} {tail : Nat} (hd : DiskOk tail d L)
    {p : Nat} (hp : L.Main p) (hlive : ∀ m : Nat, L.kind m = .sibling p → look m = L.home m)
    {w : Words} (hread : mirrorRead crc look d (L.home p) = .ok w) :
    ∃ s, L.Owns p s ∧ d.pay s = some w := by
  rw [mirrorRead] at hread
  rcases hph : d.hdr (L.home p) with _ | ph
  · simp [hph] at hread
  obtain hm | ⟨m, hm, hk, hhm⟩ := hd.mirror p hp ph hph
  · simp only [hph, hm, if_true] at hread
    exact ⟨_, .inl rfl, (checkedPayload_some (readSingle_ok hread)).1⟩
  · obtain ⟨phSib, hsib⟩ := Option.isSome_iff_exists.1 hhm
    have hne : (m : Int) ≠ -1 := by omega
    simp only [hph, hm, hne, if_false, hlive m hk, hsib] at hread
    split at hread
    · exact ⟨_, .inl rfl, (checkedPayload_some (readSingle_ok hread)).1⟩
    · obtain hw | hw := readPair_ok hread
      · exact ⟨_, .inl rfl, (checkedPayload_some hw).1⟩
      · exact ⟨_, .inr ⟨m, hk, rfl⟩, (checkedPayload_some hw).1⟩

theorem Layout.main_of_queue (L : Layout) {p : Nat} (hk : L.kind p = .queue) : L.Main p := by
  simp [Main, hk]

section Frame

variable (h : Inv crc b pages L)

include h

theorem Inv.peek_congr {x : Nat} (hx : L.Main x) (hsize : b'.pageSize = b.pageSize)
    (hcache : b'.cache x = b.cache x) (hlook : indirLookup b' x = indirLookup b x)
    (hsib : ∀ m : Nat, L.kind m = .sibling x → indirLookup b' m = indirLookup b m)
    (hdisk : ∀ s, L.Owns x s → b'.disk.hdr s = b.disk.hdr s ∧ b'.disk.pay s = b.disk.pay s) :
    peek crc b' x = peek crc b x := by
  rcases hc : b.cache x with _ | e
  · by_cases h0 : indirLookup b x = 0
    · simp [peek, storageRead, hcache, hc, hlook, h0]
    · have hoff : physicalOffset b x = L.home x := h.offset h0
      have hoff' : physicalOffset b' x = L.home x := by
        rw [← hoff, physicalOffset, physicalOffset, hlook, physRecordSize, physRecordSize, hsize]
      have hread : mirrorRead crc (indirLookup b') b'.disk (L.home x) = _ :=
        mirrorRead_congr h.disk hx (fun m hm => ⟨h.sibling_look hm, hsib m hm⟩) hdisk
      simp only [peek, storageRead, hcache, hc, hlook, h0, hoff, hoff', hread, if_false]
      rcases mirrorRead crc (indirLookup b) b.disk (L.home x) <;> rfl
  · rw [peek_cached hc, peek_cached (hcache.trans hc)]

theorem Inv.loaded_congr {x : Nat} (hx : L.Main x) (hsize : b'.pageSize = b.pageSize)
    (hcache : b'.cache x = b.cache x) (hlook : indirLookup b' x = indirLookup b x)
    (hsib : ∀ m : Nat, L.kind m = .sibling x → indirLookup b' m = indirLookup b m)
    (hdisk : ∀ s, L.Owns x s → b'.disk.hdr s = b.disk.hdr s ∧ b'.disk.pay s = b.disk.pay s) :
    loaded crc b' x = loaded crc b x := by
  rw [loaded, loaded, hcache, h.peek_congr hx hsize hcache hlook hsib hdisk]

theorem Inv.pages_of_queue {p : Nat} (hk : L.kind p = .queue) : pages p = none := by
  by_contra hp
  simp [(h.client p hp).1] at hk

theorem Inv.cached_queue {p : Nat} (hk : L.kind p = .queue) {e : CacheEntry}
    (he : b.cache p = some e) : QueuePage L p e.payload := by
  obtain hp | ⟨-, hq⟩ := h.cache.kind p e he
  · exact absurd (h.pages_of_queue hk) hp
  · exact hq

/-- Reading a queue page: it fails and nothing changes, or the page is cached afterwards and the
backend reads every page as before. -/
theorem Inv.storageRead_queue {p : Nat} (hk : L.kind p = .queue) :
    (loaded crc b p = none ∧ ∃ r, (∀ w, r ≠ .ok w) ∧ storageRead crc b p = (r, b)) ∨
    ∃ e cached cache, loaded crc b p = some e ∧
      storageRead crc b p = (.ok e.payload, { b with cached := cached, cache := cache }) ∧
      Inv crc { b with cached := cached, cache := cache } pages L ∧
      cache p = some e ∧ (∀ x, x ≠ p → cache x = b.cache x) ∧ QueuePage L p e.payload := by
  rcases hc : b.cache p with _ | e
  · by_cases h0 : indirLookup b p = 0
    · exact .inl ⟨by simp [loaded, peek, storageRead, hc, h0], .notFound, by simp,
        by simp [storageRead, hc, h0]⟩
    · have hoff : physicalOffset b p = L.home p := h.offset h0
      rcases hread : mirrorRead crc (indirLookup b) b.disk (L.home p) with w | _ | _
      · obtain ⟨s, hs, hpay⟩ := mirrorRead_payload h.disk (L.main_of_queue hk)
          (fun m hm => h.sibling_look hm) hread
        have hq := h.disk.queue p hk s hs w hpay
        have hinv := h.cacheRead hc hread (.inr ⟨hk, hq⟩)
        have heq : storageRead crc b p = (.ok w, cacheInsert b p w .data false) := by
          simp [storageRead, hc, h0, hoff, hread]
        simp only [cacheInsert, hc] at hinv heq
        refine .inr ⟨⟨w, .data, false⟩, p :: b.cached,
          Function.update b.cache p (some ⟨w, .data, false⟩), by simp [loaded, peek, hc, heq], heq, hinv,
          by simp, fun x hx => by simp [hx], hq⟩
      · exact .inl ⟨by simp [loaded, peek, storageRead, hc, h0, hoff, hread], .ioError, by simp,
          by simp [storageRead, hc, h0, hoff, hread]⟩
      · exact .inl ⟨by simp [loaded, peek, storageRead, hc, h0, hoff, hread], .crcError, by simp,
          by simp [storageRead, hc, h0, hoff, hread]⟩
  · exact .inr ⟨e, b.cached, b.cache, loaded_cached hc, storageRead_cached hc, h, hc, fun _ _ => rfl,
      h.cached_queue hk hc⟩

theorem Inv.peek_queue {p : Nat} (hk : L.kind p = .queue) {w : Words}
    (hw : peek crc b p = some w) : QueuePage L p w := by
  obtain ⟨-, r, hr, hread⟩ | ⟨e, _, _, -, hread, -, -, -, hq⟩ := h.storageRead_queue hk
  · rw [peek, hread] at hw
    cases r with
    | ok w => exact absurd rfl (hr w)
    | notFound => cases hw
    | ioError => cases hw
    | crcError => cases hw
  · rw [peek, hread] at hw
    cases hw
    exact hq

end Frame

end Peek

/-! ## The queue as a whole -/

section Whole

variable {crc : Words → UInt32} {b b' : Backend} {pages : Nat → Option (Option Words)} {L : Layout}

@[simp] theorem queueFrom_zero (n : Nat) : queueFrom crc b n 0 = [] := by
  cases n <;> simp [queueFrom]

theorem queueFrom_succ {n p : Nat} (hp : p ≠ 0) {w : Words} (hw : peek crc b p = some w) :
    queueFrom crc b (n + 1) p =
      ((List.range (w 1)).map fun i => w (2 + 2 * i)).reverse ++ queueFrom crc b n (w 0) := by
  simp [queueFrom, hp, hw]

variable (h : Inv crc b pages L)

include h

theorem Inv.queue_ne_zero {p : Nat} (hk : L.kind p = .queue) : p ≠ 0 := by
  rintro rfl
  simp [h.table.header.1] at hk

theorem Inv.queue_lt {p : Nat} (hk : L.kind p = .queue) : p < b.totalPages := by
  by_contra hle
  have := h.table.ahead p (Nat.le_of_not_lt hle) (by simp [hk])
  simp [hk] at this

/-- The queue from a page on depends only on how that page and younger ones read. Queue pages are
chained in the order of their numbers, so any fuel that reaches the last page will do. -/
theorem Inv.queueFrom_congr (n : Nat) : ∀ (m p : Nat), (p = 0 ∨ L.kind p = .queue) →
    b.totalPages ≤ n + p → b.totalPages ≤ m + p →
    (∀ x, p ≤ x → L.kind x = .queue → peek crc b' x = peek crc b x) →
    queueFrom crc b' m p = queueFrom crc b n p := by
  induction n with
  | zero =>
    rintro m p (rfl | hk) hn hm hpeek
    · simp
    · have := h.queue_lt hk
      omega
  | succ n ih =>
    rintro m p (rfl | hk) hn hm hpeek
    · simp
    · have hlt := h.queue_lt hk
      have hp := h.queue_ne_zero hk
      obtain ⟨m, rfl⟩ : ∃ m', m = m' + 1 := ⟨m - 1, by omega⟩
      rcases hw : peek crc b p with _ | w
      · simp [queueFrom, hp, hw, hpeek p (Nat.le_refl p) hk]
      · rw [queueFrom_succ hp hw, queueFrom_succ hp ((hpeek p (Nat.le_refl p) hk).trans hw)]
        have hnext := (h.peek_queue hk hw).next
        congr 1
        obtain h0 | ⟨hlt', hk'⟩ := hnext
        · simp [h0]
        · exact ih m (w 0) (.inr hk') (by omega) (by omega) fun x hx => hpeek x (by omega)

theorem Inv.mem_queueFrom {q : Nat} (n : Nat) : ∀ p, (p = 0 ∨ L.kind p = .queue) →
    q ∈ queueFrom crc b n p → L.WasClient q := by
  induction n with
  | zero => simp [queueFrom]
  | succ n ih =>
    rintro p (rfl | hk) hq
    · simp at hq
    · rcases hw : peek crc b p with _ | w
      · simp [queueFrom, h.queue_ne_zero hk, hw] at hq
      · have hpage := h.peek_queue hk hw
        rw [queueFrom_succ (h.queue_ne_zero hk) hw, List.mem_append] at hq
        obtain hq | hq := hq
        · simp only [List.mem_reverse, List.mem_map, List.mem_range] at hq
          obtain ⟨i, hi, rfl⟩ := hq
          exact (hpage.entry i hi).1
        · exact ih (w 0) (hpage.next.imp_right And.right) hq

theorem Inv.sound_congr (hs : QueueSound crc b) (hhead : b'.freeListHead = b.freeListHead)
    (hcount : b'.freeListCount = b.freeListCount) (hle : b.totalPages ≤ b'.totalPages)
    (hpeek : ∀ x, L.kind x = .queue → peek crc b' x = peek crc b x)
    (hlook : ∀ q : Nat, L.WasClient q → indirLookup b q = 0 → indirLookup b' q = 0) :
    QueueSound crc b' := by
  have hsame : freeQueue crc b' = freeQueue crc b := by
    rw [freeQueue, freeQueue, hhead]
    exact h.queueFrom_congr _ _ _ h.head (by omega) (by omega) fun x _ => hpeek x
  rw [QueueSound, hcount, hsame]
  refine hs.imp_right fun ⟨hnd, hfree⟩ => ⟨hnd, fun q hq => ?_⟩
  exact hlook q (h.mem_queueFrom _ _ h.head hq) (hfree q hq)

theorem Inv.indirSet_eq {p s : Nat} (hk : L.kind p ≠ .none) :
    indirSet b p s = { b with entries := Function.update b.entries p s } := by
  have hclean : ∀ x f, L.kind x = .header ∨ L.kind x = .table →
      cacheModify { b with entries := Function.update b.entries p s } x f =
        { b with entries := Function.update b.entries p s } := by
    intro x f hx
    have hpages : pages x = none := by
      by_contra hp
      simp [(h.client x hp).1] at hx
    have hnone : b.cache x = none := h.uncached hpages (by obtain hx | hx := hx <;> simp [hx])
    have hsame : Function.update b.cache x ((b.cache x).map f) = b.cache := by
      rw [hnone, Option.map_none, ← hnone, Function.update_eq_self]
    simp only [cacheModify, hsame]
  have hrange : p < totalEntries b := h.table.in_range hk
  rw [indirSet]
  split
  · exact hclean 0 _ (.inl h.table.header.1)
  · next hin =>
    refine hclean _ _ (.inr ((h.table.table_iff _).2 ⟨_, ?_, rfl⟩))
    rw [totalEntries] at hrange
    refine Nat.div_lt_of_lt_mul ?_
    rw [Nat.mul_comm]
    omega

end Whole

/-! ## Taking a page from the queue -/

section Dequeue

variable {crc : Words → UInt32} {b b' : Backend} {pages : Nat → Option (Option Words)} {L : Layout}

theorem indirLookup_update {p s : Nat} (hp : p < totalEntries b) (x : Nat) :
    indirLookup { b with entries := Function.update b.entries p s } x =
      if x = p then s else indirLookup b x := by
  have htotal : totalEntries { b with entries := Function.update b.entries p s } = totalEntries b :=
    rfl
  rw [indirLookup_nat, indirLookup_nat, htotal]
  by_cases hx : x = p
  · simp [hx, hp]
  · simp only [Function.update_of_ne hx, hx, if_false]

/-- What `dequeue_from_free_list` did to the backend when it took page `q` as entry `i` of the head
page, which was cached as `e`. -/
structure Popped (crc : Words → UInt32) (pages : Nat → Option (Option Words)) (L : Layout)
    (b b' : Backend) (head i q : Nat) (e : CacheEntry) : Prop where
  inv : Inv crc b' pages L
  pageSize : b'.pageSize = b.pageSize
  totalPages : b'.totalPages = b.totalPages
  disk : b'.disk = b.disk
  entry : indirLookup b' q ≠ 0
  look : ∀ x : Nat, x ≠ q → x ≠ head → indirLookup b' x = indirLookup b x
  cache : ∀ x, x ≠ q → x ≠ head → b'.cache x = b.cache x
  stays : ∀ x, (b.cache x).isSome → (b'.cache x).isSome
  physicalTail : b'.physicalTail = b.physicalTail
  tail : b'.freeListTail = b.freeListTail
  count : b'.freeListCount = b.freeListCount - 1
  shorter : b'.cache head = some { e with payload := Function.update e.payload 1 i }
  last : i = 0 → b'.freeListHead = e.payload 0
  more : i ≠ 0 → b'.freeListHead = b.freeListHead
  drained : i = 0 → indirLookup b' head = 0
  keeps : i ≠ 0 → indirLookup b' head = indirLookup b head

theorem Inv.advanceHead (h : Inv crc b pages L) {head : Nat} (hk : L.kind head = .queue)
    {e : CacheEntry} (he : b.cache head = some e) :
    Storage.advanceHead crc b head = { b with
      freeListHead := e.payload 0
      entries := Function.update b.entries head 0 } ∧
    Inv crc { b with
      freeListHead := e.payload 0
      entries := Function.update b.entries head 0 } pages L := by
  have hused : L.kind head ≠ .none := by simp [hk]
  have hnext := (h.cached_queue hk he).next.imp_right And.right
  have h1 : Inv crc { b with freeListHead := e.payload 0 } pages L := { h with head := hnext }
  refine ⟨?_, h1.setEntry hused (.inr ⟨rfl, h.pages_of_queue hk, .inr hk⟩)⟩
  simp only [Storage.advanceHead, readFreeListNext, storageRead_cached he]
  exact h1.indirSet_eq hused

theorem QueuePage.shorten {p i : Nat} {w : Words} (hw : QueuePage L p w) (hi : i ≤ w 1) :
    QueuePage L p (Function.update w 1 i) := by
  constructor
  · simpa using hw.next
  · intro j hj
    rw [Function.update_self] at hj
    have h2 : 2 + 2 * j ≠ 1 := by omega
    have h3 : 3 + 2 * j ≠ 1 := by omega
    simp only [Function.update_of_ne h2, Function.update_of_ne h3]
    exact hw.entry j (by omega)

theorem tryClaimEntry_free {p s : Nat} (hlook : indirLookup b p = 0) (hp : p < totalEntries b) :
    tryClaimEntry b p s = some { b with entries := Function.update b.entries p s } := by
  simp [tryClaimEntry, hlook, hp]

theorem Inv.claimPopped (h : Inv crc b pages L) {q : Nat} (hq : L.WasClient q)
    (hlook : indirLookup b q = 0) :
    Storage.claimPopped b q (L.home q) = (some q, { cacheInvalidate b q with
      freeListCount := b.freeListCount - 1
      entries := Function.update b.entries q (L.home q) }) ∧
    Inv crc { cacheInvalidate b q with
      freeListCount := b.freeListCount - 1
      entries := Function.update b.entries q (L.home q) } pages L := by
  obtain ⟨-, hpages⟩ := h.free_of_look hq hlook
  have h1 : Inv crc { cacheInvalidate b q with freeListCount := b.freeListCount - 1 } pages L :=
    { h.invalidate hpages with }
  refine ⟨?_, h1.setEntry hq.used (.inl rfl)⟩
  have hclaim : tryClaimEntry { cacheInvalidate b q with
      freeListCount := (cacheInvalidate b q).freeListCount - 1 } q (L.home q) =
      some { cacheInvalidate b q with
        freeListCount := b.freeListCount - 1
        entries := Function.update b.entries q (L.home q) } :=
    tryClaimEntry_free hlook (h.table.in_range hq.used)
  simp only [Storage.claimPopped, hclaim]

theorem Inv.popEntry (h : Inv crc b pages L) {head i : Nat} (hk : L.kind head = .queue)
    {e : CacheEntry} (he : b.cache head = some e) (hi : e.payload 1 = i + 1)
    (hlook : indirLookup b (e.payload (2 + 2 * i)) = 0) :
    ∃ b', Storage.popEntry crc b head i (e.payload (2 + 2 * i)) (e.payload (3 + 2 * i)) =
        (some (e.payload (2 + 2 * i)), b') ∧
      Popped crc pages L b b' head i (e.payload (2 + 2 * i)) e := by
  have hpage := h.cached_queue hk he
  obtain ⟨hq, hoff⟩ := hpage.entry i (by omega)
  rw [hoff]
  set q := e.payload (2 + 2 * i)
  have hqh : q ≠ head := by
    intro heq
    obtain hqk | ⟨p, hqk⟩ := hq.2 <;> simp [heq, hk] at hqk
  have hpos : L.home q ≠ 0 := h.table.home_pos (by have := hq.1; omega) hq.used
  have hrange : q < totalEntries b := h.table.in_range hq.used
  have hrange' : head < totalEntries b := h.table.in_range (by simp [hk])
  -- the count goes down in the cache
  set b1 := cacheModify b head fun e => { e with payload := Function.update e.payload 1 i }
  have h1 : Inv crc b1 pages L := h.queueModify hk fun e' he' => by
    rw [he] at he'
    cases he'
    exact hpage.shorten (by omega)
  have he1 : b1.cache head = some { e with payload := Function.update e.payload 1 i } := by
    simp [b1, cacheModify, he]
  have hcache1 : ∀ x, x ≠ head → b1.cache x = b.cache x := by
    intro x hx
    simp [b1, cacheModify, hx]
  have hlook1 : ∀ x : Nat, indirLookup b1 x = indirLookup b x := fun _ => rfl
  -- the popped page is not cached, so dropping it drops nothing
  have hstays : ∀ x, (b.cache x).isSome → (Function.update b1.cache q none x).isSome := by
    intro x hx
    obtain ⟨hqk, hqp⟩ := h.free_of_look hq hlook
    have hxq : x ≠ q := by
      rintro rfl
      simp [h.uncached hqp (by simp [hqk])] at hx
    rw [Function.update_of_ne hxq]
    by_cases hxh : x = head
    · simp [hxh, he1]
    · rwa [hcache1 x hxh]
  have hshorter : Function.update b1.cache q none head =
      some { e with payload := Function.update e.payload 1 i } :=
    (Function.update_of_ne hqh.symm none b1.cache).trans he1
  rw [Storage.popEntry]
  by_cases h0 : i = 0
  · -- the head page is drained
    obtain ⟨heq, h2⟩ := h1.advanceHead hk he1
    have hlook2 := indirLookup_update (b := b1) (s := 0) hrange'
    have hfree : indirLookup { b1 with
        freeListHead := Function.update e.payload 1 i 0
        entries := Function.update b1.entries head 0 } q = 0 := by
      refine (hlook2 q).trans ?_
      rw [if_neg hqh, hlook1, hlook]
    obtain ⟨hclaim, h3⟩ := h2.claimPopped hq hfree
    have hlook3 := indirLookup_update (b := { b1 with
      freeListHead := Function.update e.payload 1 i 0
      entries := Function.update b1.entries head 0 }) (s := L.home q) hrange
    rw [if_pos h0, heq]
    refine ⟨_, hclaim, h3, rfl, rfl, rfl, ?_, ?_, ?_, hstays, rfl, rfl, rfl, hshorter, ?_, ?_, ?_,
      fun hne => absurd h0 hne⟩
    · refine ne_of_eq_of_ne ((hlook3 q).trans (if_pos rfl)) hpos
    · intro x hxq hxh
      refine (hlook3 x).trans ?_
      rw [if_neg hxq]
      exact (hlook2 x).trans (if_neg hxh)
    · intro x hxq hxh
      refine (Function.update_of_ne hxq none b1.cache).trans ?_
      exact hcache1 x hxh
    · intro _
      exact Function.update_of_ne Nat.zero_ne_one i e.payload
    · exact fun hne => absurd h0 hne
    · intro _
      refine (hlook3 head).trans ?_
      rw [if_neg hqh.symm]
      exact (hlook2 head).trans (if_pos rfl)
  · have hfree : indirLookup b1 q = 0 := hlook
    obtain ⟨hclaim, h3⟩ := h1.claimPopped hq hfree
    have hlook3 := indirLookup_update (b := b1) (s := L.home q) hrange
    rw [if_neg h0]
    refine ⟨_, hclaim, h3, rfl, rfl, rfl, ?_, ?_, ?_, hstays, rfl, rfl, rfl, hshorter, ?_, ?_,
      fun h => absurd h h0, fun _ => (hlook3 head).trans (if_neg hqh.symm)⟩
    · refine ne_of_eq_of_ne ((hlook3 q).trans (if_pos rfl)) hpos
    · intro x hxq _
      exact (hlook3 x).trans (if_neg hxq)
    · intro x hxq hxh
      exact (Function.update_of_ne hxq none b1.cache).trans (hcache1 x hxh)
    · exact fun h => absurd h h0
    · exact fun _ => rfl

theorem Inv.queueFrom_next (h : Inv crc b pages L) {head : Nat} {w : Words}
    (hw : QueuePage L head w)
    (hpeek : ∀ x, head < x → L.kind x = .queue → peek crc b' x = peek crc b x) {m : Nat}
    (hm : b.totalPages ≤ m + 1) :
    queueFrom crc b' m (w 0) = queueFrom crc b (b.totalPages - 1) (w 0) := by
  obtain h0 | ⟨hlt, hk⟩ := hw.next
  · simp [h0]
  · exact h.queueFrom_congr _ _ _ (.inr hk) (by omega) (by omega)
      fun x hx => hpeek x (Nat.lt_of_lt_of_le hlt hx)

theorem Inv.freeQueue_head (h : Inv crc b pages L) (hk : L.kind b.freeListHead = .queue)
    {w : Words} (hw : peek crc b b.freeListHead = some w) :
    freeQueue crc b = ((List.range (w 1)).map fun i => w (2 + 2 * i)).reverse ++
      queueFrom crc b (b.totalPages - 1) (w 0) := by
  have hpos : b.totalPages = b.totalPages - 1 + 1 := by
    have := h.table.two_le
    omega
  rw [freeQueue]
  conv_lhs => rw [hpos]
  exact queueFrom_succ (h.queue_ne_zero hk) hw

theorem Inv.sound_advance (h : Inv crc b pages L) (hs : QueueSound crc b)
    (hk : L.kind b.freeListHead = .queue) {e : CacheEntry}
    (he : b.cache b.freeListHead = some e) (h0 : e.payload 1 = 0) :
    QueueSound crc { b with
      freeListHead := e.payload 0
      entries := Function.update b.entries b.freeListHead 0 } := by
  have hlook := indirLookup_update (s := 0)
    (show b.freeListHead < totalEntries b from h.table.in_range (by simp [hk]))
  set b2 : Backend := { b with
    freeListHead := e.payload 0
    entries := Function.update b.entries b.freeListHead 0 }
  have hpeek : ∀ x, b.freeListHead < x → L.kind x = .queue → peek crc b2 x = peek crc b x := by
    intro x hx hxk
    refine h.peek_congr (L.main_of_queue hxk) rfl rfl ((hlook x).trans (if_neg (by omega)))
      (fun m hm => (hlook m).trans (if_neg ?_)) fun _ _ => ⟨rfl, rfl⟩
    rintro rfl
    simp [hk] at hm
  have hsame : freeQueue crc b2 = freeQueue crc b := by
    rw [h.freeQueue_head hk (peek_cached he), h0]
    exact h.queueFrom_next (h.cached_queue hk he) hpeek (Nat.le_succ _)
  rw [QueueSound, hsame]
  refine hs.imp_right fun ⟨hnd, hfree⟩ => ⟨hnd, fun q hq => ?_⟩
  refine (hlook q).trans ?_
  split
  · rfl
  · exact hfree q hq

theorem Popped.sound {i : Nat} {e : CacheEntry} (h : Inv crc b pages L)
    (hk : L.kind b.freeListHead = .queue) (he : b.cache b.freeListHead = some e)
    (hi : e.payload 1 = i + 1) (hnd : (freeQueue crc b).Nodup)
    (hfree : ∀ q ∈ freeQueue crc b, indirLookup b (q : Int) = 0)
    (hp : Popped crc pages L b b' b.freeListHead i (e.payload (2 + 2 * i)) e) :
    QueueSound crc b' := by
  have hpage := h.cached_queue hk he
  have hq := (hpage.entry i (by omega)).1
  set q := e.payload (2 + 2 * i)
  have hqueue : freeQueue crc b = q :: (((List.range i).map fun i => e.payload (2 + 2 * i)).reverse ++
      queueFrom crc b (b.totalPages - 1) (e.payload 0)) := by
    rw [h.freeQueue_head hk (peek_cached he), hi, List.range_succ, List.map_append,
      List.reverse_append]
    rfl
  have hqk : L.kind q = .client := (h.free_of_look hq (hfree q (by simp [hqueue]))).1
  have hpeek : ∀ x, b.freeListHead < x → L.kind x = .queue → peek crc b' x = peek crc b x := by
    intro x hx hxk
    have hxq : x ≠ q := by
      rintro rfl
      simp [hqk] at hxk
    refine h.peek_congr (L.main_of_queue hxk) hp.pageSize (hp.cache x hxq (by omega))
      (hp.look x hxq (by omega)) (fun m hm => hp.look m ?_ ?_) fun _ _ => by simp [hp.disk]
    · rintro rfl
      simp [hqk] at hm
    · rintro rfl
      simp [hk] at hm
  have hrest : freeQueue crc b' = ((List.range i).map fun i => e.payload (2 + 2 * i)).reverse ++
      queueFrom crc b (b.totalPages - 1) (e.payload 0) := by
    by_cases h0 : i = 0
    · rw [freeQueue, hp.last h0, hp.totalPages, h0]
      exact h.queueFrom_next hpage hpeek (Nat.le_succ _)
    · have hhead := hp.more h0
      have hcache := hp.shorter
      rw [← hhead] at hk hcache
      rw [hp.inv.freeQueue_head hk (peek_cached hcache), hp.totalPages]
      have hword : ∀ j, Function.update e.payload 1 i (2 + 2 * j) = e.payload (2 + 2 * j) :=
        fun j => Function.update_of_ne (by omega) _ _
      have hzero : Function.update e.payload 1 i 0 = e.payload 0 :=
        Function.update_of_ne Nat.zero_ne_one _ _
      simp only [Function.update_self, hword, hzero]
      congr 1
      exact h.queueFrom_next hpage hpeek (by omega)
  rw [hqueue] at hnd hfree
  obtain ⟨hnotin, hnd'⟩ := List.nodup_cons.1 hnd
  refine .inr ⟨by rwa [hrest], fun r hr => ?_⟩
  rw [hrest] at hr
  have hrq : r ≠ q := by
    rintro rfl
    exact hnotin hr
  have hrh : r ≠ b.freeListHead := by
    have hrc := h.mem_queueFrom b.totalPages b.freeListHead h.head
      (show r ∈ freeQueue crc b by rw [hqueue]; exact List.mem_cons_of_mem _ hr)
    rintro rfl
    obtain hrk | ⟨p, hrk⟩ := hrc.2 <;> simp [hk] at hrk
  rw [hp.look r hrq hrh]
  exact hfree r (List.mem_cons_of_mem _ hr)

structure Kept (pages : Nat → Option (Option Words)) (b b' : Backend) : Prop where
  pageSize : b'.pageSize = b.pageSize
  totalPages : b.totalPages ≤ b'.totalPages
  disk : b'.disk = b.disk
  cache : ∀ p, pages p ≠ none → b'.cache p = b.cache p
  stays : ∀ x, (b.cache x).isSome → (b'.cache x).isSome

theorem Kept.refl (pages : Nat → Option (Option Words)) (b : Backend) : Kept pages b b :=
  ⟨rfl, Nat.le_refl _, rfl, fun _ _ => rfl, fun _ hx => hx⟩

theorem Kept.trans {b1 b2 : Backend} (h1 : Kept pages b b1) (h2 : Kept pages b1 b2) :
    Kept pages b b2 :=
  ⟨h2.pageSize.trans h1.pageSize, Nat.le_trans h1.totalPages h2.totalPages,
    h2.disk.trans h1.disk, fun p hp => (h2.cache p hp).trans (h1.cache p hp),
    fun x hx => h2.stays x (h1.stays x hx)⟩

/-- Page `q` was allocated. -/
structure Allocated (crc : Words → UInt32) (pages : Nat → Option (Option Words)) (b b' : Backend)
    (L L' : Layout) (q : Nat) : Prop where
  inv : Inv crc b' pages L'
  sound : QueueSound crc b'
  ext : L.Extends L'
  kept : Kept pages b b'
  kind : L'.kind q = .client
  entry : indirLookup b' q ≠ 0
  free : pages q = none
  two_le : 2 ≤ q

theorem Inv.sound_read (h : Inv crc b pages L) (hs : QueueSound crc b) {p : Nat} {e : CacheEntry}
    {cached : List Nat} {cache : Nat → Option CacheEntry} (hpeek : peek crc b p = some e.payload)
    (hp : cache p = some e) (hcache : ∀ x, x ≠ p → cache x = b.cache x) :
    QueueSound crc { b with cached := cached, cache := cache } := by
  refine h.sound_congr hs rfl rfl (Nat.le_refl _) (fun x hx => ?_) fun _ _ hq => hq
  by_cases hxp : x = p
  · subst hxp
    rw [hpeek]
    exact peek_cached hp
  · exact h.peek_congr (L.main_of_queue hx) rfl (hcache x hxp) rfl (fun _ _ => rfl)
      fun _ _ => ⟨rfl, rfl⟩

theorem Inv.dequeue (n : Nat) : ∀ {b : Backend}, Inv crc b pages L → QueueSound crc b →
    (∃ b', dequeueFromFreeList crc n b = (none, b') ∧ Inv crc b' pages L ∧ QueueSound crc b' ∧
      Kept pages b b') ∨
    ∃ q b', dequeueFromFreeList crc n b = (some q, b') ∧ Allocated crc pages b b' L L q := by
  induction n with
  | zero => exact fun h hs => .inl ⟨_, rfl, h, hs, .refl _ _⟩
  | succ n ih =>
    intro b h hs
    by_cases hempty : b.freeListCount = 0 ∨ b.freeListHead = 0
    · exact .inl ⟨b, by rw [dequeueFromFreeList, if_pos hempty], h, hs, .refl _ _⟩
    have hk : L.kind b.freeListHead = .queue := h.head.resolve_left fun h0 => hempty (.inr h0)
    obtain ⟨-, r, hr, hread⟩ | ⟨e, cached, cache, hloaded, hread, h1, he, hcache, hpage⟩ :=
      h.storageRead_queue hk
    · -- the head page cannot be read
      have hcount : readFreeListCount crc b b.freeListHead = (none, b) := by
        rw [readFreeListCount, hread]
        cases r with
        | ok w => exact absurd rfl (hr w)
        | notFound => rfl
        | ioError => rfl
        | crcError => rfl
      exact .inl ⟨b, by simp only [dequeueFromFreeList, if_neg hempty, hcount], h, hs, .refl _ _⟩
    have hs1 : QueueSound crc { b with cached := cached, cache := cache } :=
      h.sound_read hs (loaded_payload hloaded) he hcache
    set b1 : Backend := { b with cached := cached, cache := cache }
    have hkept : Kept pages b b1 := by
      refine ⟨rfl, Nat.le_refl _, rfl, fun p hp => hcache p ?_, fun x hx => ?_⟩
      · rintro rfl
        exact hp (h.pages_of_queue hk)
      · by_cases hxh : x = b.freeListHead
        · simp [hxh, b1, he]
        · rwa [← hcache x hxh] at hx
    have hcount : readFreeListCount crc b b.freeListHead = (some (e.payload 1), b1) := by
      rw [readFreeListCount, hread]
    have he1 : b1.cache b1.freeListHead = some e := he
    rcases hi : e.payload 1 with _ | i
    · -- the head page is empty: go on with the next one
      obtain ⟨hadv, h2⟩ := h1.advanceHead hk he1
      have hs2 := h1.sound_advance hs1 hk he1 hi
      have hstep : dequeueFromFreeList crc (n + 1) b =
          dequeueFromFreeList crc n (Storage.advanceHead crc b1 b.freeListHead) := by
        simp only [dequeueFromFreeList, if_neg hempty, hcount, hi]
      rw [hstep]
      rw [hadv]
      have hkept2 : Kept pages b { b1 with
          freeListHead := e.payload 0
          entries := Function.update b1.entries b1.freeListHead 0 } :=
        hkept.trans ⟨rfl, Nat.le_refl _, rfl, fun _ _ => rfl, fun _ hx => hx⟩
      obtain ⟨b', heq, hinv, hs', hk'⟩ | ⟨q, b', heq, ha⟩ := ih h2 hs2
      · exact .inl ⟨b', heq, hinv, hs', hkept2.trans hk'⟩
      · exact .inr ⟨q, b', heq, ha.inv, ha.sound, ha.ext, hkept2.trans ha.kept, ha.kind, ha.entry,
          ha.free, ha.two_le⟩
    · -- entry i is taken; the queue is not empty, so it is sound in earnest
      obtain ⟨hnd, hfree⟩ := hs1.resolve_left fun h0 => hempty (.inl h0)
      have hmem : e.payload (2 + 2 * i) ∈ freeQueue crc b1 := by
        rw [h1.freeQueue_head hk (peek_cached he1), hi]
        simp [List.range_succ]
      have hlook := hfree _ hmem
      obtain ⟨hq, -⟩ := hpage.entry i (by omega)
      obtain ⟨hqk, hqp⟩ := h1.free_of_look hq hlook
      obtain ⟨b', hpop, hp⟩ := h1.popEntry hk he1 hi hlook
      have hzero : e.payload (2 + 2 * i) ≠ 0 := by
        have := hq.1
        omega
      have hread1 : storageRead crc b1 b.freeListHead = (.ok e.payload, b1) :=
        storageRead_cached he1
      have hentry : readFreeListEntry crc b1 b.freeListHead i =
          ((e.payload (2 + 2 * i), e.payload (3 + 2 * i)), b1) := by
        rw [readFreeListEntry, hread1]
      refine .inr ⟨_, b', ?_, hp.inv, hp.sound h1 hk he1 hi hnd hfree, .refl L, ?_, hqk, hp.entry,
        hqp, hq.1⟩
      · simp only [dequeueFromFreeList, if_neg hempty, hcount, hi, hentry, if_neg hzero,
          hread1]
        exact hpop
      · refine hkept.trans ⟨hp.pageSize, Nat.le_of_eq hp.totalPages.symm, hp.disk, fun p hpp => ?_,
          hp.stays⟩
        refine hp.cache p ?_ ?_
        · rintro rfl
          exact hpp hqp
        · rintro rfl
          exact hpp (h.pages_of_queue hk)

theorem Inv.storageAllocate (h : Inv crc b pages L) (hs : QueueSound crc b) :
    ∃ q b' L', Storage.storageAllocate crc b = (some q, b') ∧
      Allocated crc pages b b' L L' q := by
  obtain ⟨b1, heq, h1, hs1, hkept⟩ | ⟨q, b', heq, ha⟩ := Inv.dequeue 1000 h hs
  · obtain ⟨q, b', L', htail, ht⟩ := h1.tailAdvance (.inl rfl)
    have hle : b1.totalPages ≤ b'.totalPages := Nat.le_of_lt (Nat.lt_of_le_of_lt ht.ge ht.lt)
    refine ⟨q, b', L', by simp only [Storage.storageAllocate, heq, htail], ht.inv, ?_, ht.ext, ?_,
      ht.kind, ht.entry, ?_, Nat.le_trans h1.table.two_le ht.ge⟩
    · refine h1.sound_congr hs1 ht.same.head ht.same.count hle (fun x hx => ?_) fun q hq h0 => ?_
      · exact h1.peek_congr (L.main_of_queue hx) ht.same.pageSize (by rw [ht.same.cache])
          (ht.look x (by simp [hx])) (fun m hm => ht.look m (by simp [hm]))
          fun _ _ => by simp [ht.same.disk]
      · rw [ht.look q hq.used, h0]
    · exact hkept.trans ⟨ht.same.pageSize, hle, ht.same.disk, fun _ _ => by rw [ht.same.cache],
        fun _ hx => by rwa [ht.same.cache]⟩
    · by_contra hp
      exact absurd ht.unused (by simp [(h1.client q hp).1])
  · exact ⟨q, b', L, by simp only [Storage.storageAllocate, heq], ha⟩

end Dequeue

end Storage
end SphereVFS
