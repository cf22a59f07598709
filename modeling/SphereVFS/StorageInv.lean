import SphereVFS.Storage

/-!
# SphereVFS.StorageInv

The invariant of the storage backend.

Every logical page that was ever given an entry has a kind and a home, the record its entry names.
A page of the client and a page that is free are of one kind: which of the two it is, the client and
the table know. The records of a page are its home and, once it is mirrored, the home of its sibling.
No two pages share a record, so a write to one page leaves all others as they read.
-/

namespace SphereVFS
namespace Storage

open Mirror

inductive Kind where
  | none
  | header
  | client
  | sibling (page : Nat)
  | queue
  | table
  deriving DecidableEq

structure Layout where
  kind : Nat → Kind
  home : Nat → Nat

namespace Layout

/-- A page that `mirror_write` is called for. -/
def Main (L : Layout) (p : Nat) : Prop := L.kind p ≠ .none ∧ ∀ q, L.kind p ≠ .sibling q

/-- Record `s` is one of the records of page `p`. -/
def Owns (L : Layout) (p s : Nat) : Prop := s = L.home p ∨ ∃ m, L.kind m = .sibling p ∧ s = L.home m

/-- Page `q` was a page of the client at some time. -/
def WasClient (L : Layout) (q : Nat) : Prop :=
  2 ≤ q ∧ (L.kind q = .client ∨ ∃ p, L.kind q = .sibling p)

def set (L : Layout) (p : Nat) (k : Kind) (s : Nat) : Layout :=
  ⟨Function.update L.kind p k, Function.update L.home p s⟩

end Layout

/-- The contents of a queue page: the chain goes on to a younger queue page, and every entry names
the home of a page of the client. -/
structure QueuePage (L : Layout) (p : Nat) (w : Words) : Prop where
  next : w 0 = 0 ∨ p < w 0 ∧ L.kind (w 0) = .queue
  entry : ∀ i < w 1, L.WasClient (w (2 + 2 * i)) ∧ w (3 + 2 * i) = L.home (w (2 + 2 * i))

structure TableOk (pageSize totalPages physicalTail overflowCount : Nat) (look : Int → Nat)
    (L : Layout) : Prop where
  size : 120 ≤ pageSize
  two_le : 2 ≤ totalPages
  room : totalPages < inlineEntryCount pageSize + overflowCount * entriesPerOverflow pageSize
  header : L.kind 0 = .header ∧ L.home 0 = 0 ∧ look 0 = 0
  superblock : L.kind 1 = .client ∧ L.home 1 = pageSize + pageHeaderSize
  entry : ∀ p : Nat, look p ≠ 0 → look p = L.home p ∧ L.kind p ≠ .none
  home_inj : ∀ p q, L.kind p ≠ .none → L.kind q ≠ .none → L.home p = L.home q → p = q
  home_lt : ∀ p, L.kind p ≠ .none → L.home p < physicalTail
  table_iff : ∀ p, L.kind p = .table ↔ ∃ i < overflowCount, p = overflowLogical pageSize i
  ahead : ∀ p, totalPages ≤ p → L.kind p ≠ .none → L.kind p = .table
  table_live : ∀ p : Nat, L.kind p = .table → look p ≠ 0
  sibling_live : ∀ p q : Nat, L.kind p = .sibling q → look p ≠ 0 ∧ L.kind q ≠ .none

structure DiskOk (physicalTail : Nat) (disk : Disk Words) (L : Layout) : Prop where
  fresh : ∀ s, physicalTail ≤ s → disk.hdr s = none ∧ disk.pay s = none
  mirror : ∀ p, L.Main p → ∀ ph, disk.hdr (L.home p) = some ph → ph.mirrorPage = -1 ∨
    ∃ m : Nat, ph.mirrorPage = m ∧ L.kind m = .sibling p ∧ (disk.hdr (L.home m)).isSome
  queue : ∀ p, L.kind p = .queue → ∀ s, L.Owns p s → ∀ w, disk.pay s = some w → QueuePage L p w

structure CacheWf (cached : List Nat) (cache : Nat → Option CacheEntry)
    (pages : Nat → Option (Option Words)) (L : Layout) : Prop where
  listed : ∀ p e, cache p = some e → p ∈ cached
  kind : ∀ p e, cache p = some e → pages p ≠ none ∨ L.kind p = .queue ∧ QueuePage L p e.payload

def Content (crc : Words → UInt32) (look : Int → Nat) (disk : Disk Words)
    (cache : Nat → Option CacheEntry) (pages : Nat → Option (Option Words)) (L : Layout) : Prop :=
  ∀ p w, pages p = some (some w) → (∀ e, cache p = some e → e.payload = w) ∧
    ((∀ e, cache p = some e → e.dirty = false) → mirrorRead crc look disk (L.home p) = .ok w)

structure Inv (crc : Words → UInt32) (b : Backend) (pages : Nat → Option (Option Words))
    (L : Layout) : Prop where
  table : TableOk b.pageSize b.totalPages b.physicalTail b.overflowCount (indirLookup b) L
  disk : DiskOk b.physicalTail b.disk L
  cache : CacheWf b.cached b.cache pages L
  content : Content crc (indirLookup b) b.disk b.cache pages L
  client : ∀ p : Nat, pages p ≠ none → L.kind p = .client ∧ indirLookup b p ≠ 0
  head : b.freeListHead = 0 ∨ L.kind b.freeListHead = .queue
  tail : b.freeListTail = 0 ∨ L.kind b.freeListTail = .queue

section Geometry

variable {pageSize : Nat}

theorem entriesPerOverflow_large (h : 120 ≤ pageSize) : 14 ≤ entriesPerOverflow pageSize := by
  rw [entriesPerOverflow]
  omega

theorem inlineEntryCount_large (h : 120 ≤ pageSize) : 3 ≤ inlineEntryCount pageSize := by
  rw [inlineEntryCount, hdrOffEntries]
  omega

theorem overflowLogical_lt {i j : Nat} (hij : i < j) :
    overflowLogical pageSize i + entriesPerOverflow pageSize ≤ overflowLogical pageSize j := by
  have hmul := Nat.mul_le_mul_right (entriesPerOverflow pageSize) hij
  rw [Nat.succ_mul] at hmul
  rw [overflowLogical, overflowLogical]
  omega

theorem overflowLogical_last (h : 120 ≤ pageSize) (n : Nat) :
    overflowLogical pageSize n + 1 =
      inlineEntryCount pageSize + n * entriesPerOverflow pageSize := by
  have := inlineEntryCount_large h
  rw [overflowLogical]
  omega

end Geometry

section Table

variable {pageSize totalPages physicalTail overflowCount : Nat} {look : Int → Nat} {L : Layout}
  (h : TableOk pageSize totalPages physicalTail overflowCount look L)

include h

theorem TableOk.home_pos {p : Nat} (hp : p ≠ 0) (hk : L.kind p ≠ .none) : L.home p ≠ 0 := by
  intro h0
  have hk0 : L.kind 0 ≠ .none := by simp [h.header.1]
  exact hp (h.home_inj p 0 hk hk0 (h0.trans h.header.2.1.symm))

theorem TableOk.in_range {p : Nat} (hk : L.kind p ≠ .none) :
    p < inlineEntryCount pageSize + overflowCount * entriesPerOverflow pageSize := by
  by_cases hp : p < totalPages
  · exact Nat.lt_trans hp h.room
  · obtain ⟨i, hi, rfl⟩ := (h.table_iff p).1 (h.ahead p (Nat.le_of_not_lt hp) hk)
    have : overflowLogical pageSize i + _ ≤ _ := overflowLogical_lt hi
    have := overflowLogical_last h.size overflowCount
    have := entriesPerOverflow_large h.size
    omega

theorem TableOk.unused {p : Nat} (hp : totalPages ≤ p) (hlook : look p = 0) : L.kind p = .none := by
  by_contra hk
  exact h.table_live p (h.ahead p hp hk) hlook

theorem TableOk.owns_ne {p q s t : Nat} (hp : L.Main p) (hq : L.Main q) (hne : p ≠ q)
    (hs : L.Owns p s) (ht : L.Owns q t) : s ≠ t := by
  rintro rfl
  obtain rfl | ⟨m, hm, rfl⟩ := hs
  · obtain heq | ⟨n, hn, heq⟩ := ht
    · exact hne (h.home_inj p q hp.1 hq.1 heq)
    · obtain rfl := h.home_inj p n hp.1 (by simp [hn]) heq
      exact hp.2 q hn
  · obtain heq | ⟨n, hn, heq⟩ := ht
    · obtain rfl := h.home_inj m q (by simp [hm]) hq.1 heq
      exact hq.2 p hm
    · obtain rfl := h.home_inj m n (by simp [hm]) (by simp [hn]) heq
      rw [hm] at hn
      exact hne (Kind.sibling.inj hn)

end Table

/-! ## Frames -/

namespace Layout

structure Extends (L L' : Layout) : Prop where
  used : ∀ p, L.kind p ≠ .none → L'.kind p = L.kind p ∧ L'.home p = L.home p
  unused : ∀ p q, L.kind p = .none → L'.kind p ≠ .sibling q

theorem Extends.refl (L : Layout) : L.Extends L :=
  ⟨fun _ _ => ⟨rfl, rfl⟩, fun _ _ h => by simp [h]⟩

theorem Extends.trans {L L1 L2 : Layout} (h1 : L.Extends L1) (h2 : L1.Extends L2) :
    L.Extends L2 := by
  constructor
  · intro p hp
    obtain ⟨hk1, hh1⟩ := h1.used p hp
    obtain ⟨hk2, hh2⟩ := h2.used p (by rwa [hk1])
    exact ⟨hk2.trans hk1, hh2.trans hh1⟩
  · intro p q hp
    by_cases h : L1.kind p = .none
    · exact h2.unused p q h
    · rw [(h2.used p h).1]
      exact h1.unused p q hp

theorem Extends.set {L : Layout} {p : Nat} {k : Kind} (hp : L.kind p = .none)
    (hk : ∀ q, k ≠ .sibling q) (s : Nat) : L.Extends (L.set p k s) := by
  constructor
  · intro q hq
    have hne : q ≠ p := by
      rintro rfl
      exact hq hp
    simp [Layout.set, hne]
  · intro q r hq
    by_cases hqp : q = p
    · subst hqp
      simpa [Layout.set] using hk r
    · simp [Layout.set, hqp, hq]

theorem Extends.sibling_iff {L L' : Layout} (h : L.Extends L') (m p : Nat) :
    L'.kind m = .sibling p ↔ L.kind m = .sibling p := by
  constructor
  · intro hm
    by_cases hn : L.kind m = .none
    · exact absurd hm (h.unused m p hn)
    · rwa [(h.used m hn).1] at hm
  · intro hm
    rw [(h.used m (by simp [hm])).1, hm]

theorem Extends.owns_iff {L L' : Layout} (h : L.Extends L') {p : Nat} (hp : L.kind p ≠ .none)
    (s : Nat) : L'.Owns p s ↔ L.Owns p s := by
  have hhome : ∀ m, L.kind m = .sibling p → L'.home m = L.home m :=
    fun m hm => (h.used m (by simp [hm])).2
  simp only [Owns, (h.used p hp).2, h.sibling_iff]
  refine or_congr Iff.rfl (exists_congr fun m => and_congr_right fun hm => ?_)
  rw [hhome m hm]

theorem Extends.wasClient {L L' : Layout} (h : L.Extends L') {q : Nat} (hq : L.WasClient q) :
    L'.WasClient q := by
  have hn : L.kind q ≠ .none := by
    obtain hc | ⟨p, hc⟩ := hq.2 <;> simp [hc]
  rw [WasClient, (h.used q hn).1]
  exact hq

theorem WasClient.used {L : Layout} {q : Nat} (h : L.WasClient q) : L.kind q ≠ .none := by
  obtain hc | ⟨p, hc⟩ := h.2 <;> simp [hc]

end Layout

theorem QueuePage.extends {L L' : Layout} (h : L.Extends L') {p : Nat} {w : Words}
    (hw : QueuePage L p w) : QueuePage L' p w := by
  constructor
  · refine hw.next.imp_right fun ⟨hlt, hk⟩ => ⟨hlt, ?_⟩
    rw [(h.used _ (by simp [hk])).1, hk]
  · intro i hi
    obtain ⟨hc, hoff⟩ := hw.entry i hi
    exact ⟨h.wasClient hc, by rw [hoff, (h.used _ hc.used).2]⟩

theorem readPair_congr {crc : Words → UInt32} {d d' : Disk Words} {off sibOff : Nat}
    {ph phSib : PageHeader} (hoff : d'.pay off = d.pay off) (hsib : d'.pay sibOff = d.pay sibOff) :
    readPair crc d' off sibOff ph phSib = readPair crc d off sibOff ph phSib := by
  by_cases hgt : phSib.generation > ph.generation
  · by_cases heq : sibOff = off <;> simp [readPair, checkedPayload, hgt, heq, hoff, hsib]
  · simp [readPair, checkedPayload, hgt, hoff, hsib]

theorem mirrorRead_congr {crc : Words → UInt32} {look look' : Int → Nat} {d d' : Disk Words}
    {tail : Nat} {L : Layout} (hd : DiskOk tail d L) {p : Nat} (hp : L.Main p)
    (hlive : ∀ m : Nat, L.kind m = .sibling p → look m = L.home m ∧ look' m = look m)
    (hsame : ∀ s, L.Owns p s → d'.hdr s = d.hdr s ∧ d'.pay s = d.pay s) :
    mirrorRead crc look' d' (L.home p) = mirrorRead crc look d (L.home p) := by
  obtain ⟨hh, hpay⟩ := hsame (L.home p) (.inl rfl)
  rw [mirrorRead, mirrorRead, hh]
  rcases hph : d.hdr (L.home p) with _ | ph
  · rfl
  obtain hm | ⟨m, hm, hk, -⟩ := hd.mirror p hp ph hph
  · simp [hm, readSingle, hpay]
  · obtain ⟨hlook, hlook'⟩ := hlive m hk
    obtain ⟨hhm, hpm⟩ := hsame (L.home m) (.inr ⟨m, hk, rfl⟩)
    simp only [hm, hlook', hlook, hhm, readSingle, hpay, readPair_congr hpay hpm]

/-! ## Facts of the invariant, and small changes that keep it -/

theorem indirLookup_nat (b : Backend) (p : Nat) :
    indirLookup b p = if p < totalEntries b then b.entries p else 0 := by
  simp [indirLookup]

section Facts

variable {crc : Words → UInt32} {b : Backend} {pages : Nat → Option (Option Words)} {L : Layout}
  (h : Inv crc b pages L)

include h

theorem Inv.main_of_client {p : Nat} (hp : pages p ≠ none) : L.Main p := by
  simp [Layout.Main, (h.client p hp).1]

theorem Inv.sibling_look {m p : Nat} (hm : L.kind m = .sibling p) :
    indirLookup b m = L.home m :=
  (h.table.entry m (h.table.sibling_live m p hm).1).1

theorem Inv.uncached {p : Nat} (hp : pages p = none) (hk : L.kind p ≠ .queue) :
    b.cache p = none := by
  rcases hc : b.cache p with _ | e
  · rfl
  · obtain hpages | ⟨hq, -⟩ := h.cache.kind p e hc
    · exact absurd hp hpages
    · exact absurd hq hk

theorem Inv.offset {p : Nat} (hlook : indirLookup b p ≠ 0) : physicalOffset b p = L.home p := by
  obtain ⟨hhome, -⟩ := h.table.entry p hlook
  rw [physicalOffset]
  split
  · next hp => rw [hp, h.table.header.2.1]
  · split
    · next hp => rw [hp, h.table.superblock.2, physRecordSize]
    · exact hhome

theorem Inv.free_of_look {q : Nat} (hq : L.WasClient q) (hlook : indirLookup b q = 0) :
    L.kind q = .client ∧ pages q = none := by
  constructor
  · obtain hk | ⟨p, hk⟩ := hq.2
    · exact hk
    · exact absurd hlook (h.table.sibling_live q p hk).1
  · by_contra hp
    exact (h.client q hp).2 hlook

theorem Inv.withCache {cached : List Nat} {cache : Nat → Option CacheEntry}
    (hcache : CacheWf cached cache pages L)
    (hcontent : Content crc (indirLookup b) b.disk cache pages L) :
    Inv crc { b with cached := cached, cache := cache } pages L :=
  { h with cache := hcache, content := hcontent }

theorem Inv.cacheRead {p : Nat} {w : Words} (hnone : b.cache p = none)
    (hread : mirrorRead crc (indirLookup b) b.disk (L.home p) = .ok w)
    (hp : pages p ≠ none ∨ L.kind p = .queue ∧ QueuePage L p w) :
    Inv crc (cacheInsert b p w .data false) pages L := by
  rw [cacheInsert, hnone]
  apply h.withCache
  · constructor
    · intro q e hq
      by_cases hqp : q = p
      · simp [hqp]
      · rw [Function.update_of_ne hqp] at hq
        exact List.mem_cons_of_mem _ (h.cache.listed q e hq)
    · intro q e hq
      by_cases hqp : q = p
      · subst hqp
        rw [Function.update_self] at hq
        cases hq
        exact hp
      · rw [Function.update_of_ne hqp] at hq
        exact h.cache.kind q e hq
  · intro q v hq
    by_cases hqp : q = p
    · subst hqp
      have hv := (h.content q v hq).2 (by simp [hnone])
      rw [hread] at hv
      cases hv
      simp [hread]
    · simp only [Function.update_of_ne hqp]
      exact h.content q v hq

theorem Inv.queueModify {p : Nat} {f : CacheEntry → CacheEntry} (hk : L.kind p = .queue)
    (hf : ∀ e, b.cache p = some e → QueuePage L p (f e).payload) :
    Inv crc (cacheModify b p f) pages L := by
  have hpages : pages p = none := by
    by_contra hp
    simp [(h.client p hp).1] at hk
  apply h.withCache
  · constructor
    · intro q e hq
      by_cases hqp : q = p
      · subst hqp
        rw [Function.update_self, Option.map_eq_some_iff] at hq
        obtain ⟨e0, he0, -⟩ := hq
        exact h.cache.listed q e0 he0
      · rw [Function.update_of_ne hqp] at hq
        exact h.cache.listed q e hq
    · intro q e hq
      by_cases hqp : q = p
      · subst hqp
        rw [Function.update_self, Option.map_eq_some_iff] at hq
        obtain ⟨e0, he0, rfl⟩ := hq
        exact .inr ⟨hk, hf e0 he0⟩
      · rw [Function.update_of_ne hqp] at hq
        exact h.cache.kind q e hq
  · intro q v hq
    have hqp : q ≠ p := by
      rintro rfl
      simp [hpages] at hq
    simp only [Function.update_of_ne hqp]
    exact h.content q v hq

theorem Inv.invalidate {p : Nat} (hp : pages p = none) :
    Inv crc (cacheInvalidate b p) pages L := by
  apply h.withCache
  · constructor
    · intro q e hq
      by_cases hqp : q = p
      · simp [hqp] at hq
      · rw [Function.update_of_ne hqp] at hq
        exact (List.mem_erase_of_ne hqp).2 (h.cache.listed q e hq)
    · intro q e hq
      by_cases hqp : q = p
      · simp [hqp] at hq
      · rw [Function.update_of_ne hqp] at hq
        exact h.cache.kind q e hq
  · intro q v hq
    have hqp : q ≠ p := by
      rintro rfl
      simp [hp] at hq
    simp only [Function.update_of_ne hqp]
    exact h.content q v hq

theorem Inv.setEntry {p s : Nat} (hk : L.kind p ≠ .none)
    (hs : s = L.home p ∨ s = 0 ∧ pages p = none ∧ (L.kind p = .client ∨ L.kind p = .queue)) :
    Inv crc { b with entries := Function.update b.entries p s } pages L := by
  have hlook : ∀ x : Nat, indirLookup { b with entries := Function.update b.entries p s } x =
      if x = p then s else indirLookup b x := by
    intro x
    have hr : p < totalEntries b := h.table.in_range hk
    rw [indirLookup_nat, indirLookup_nat]
    by_cases hx : x = p
    · subst hx
      simpa [totalEntries] using fun hlt => absurd hr (Nat.not_lt_of_le hlt)
    · simp only [Function.update_of_ne hx, hx, if_false]
      rfl
  -- a page that must keep its entry gets its home
  have hkeep : ∀ x : Nat, L.kind x ≠ .none → (x = p → s = L.home p) → x ≠ 0 →
      indirLookup b x ≠ 0 →
      indirLookup { b with entries := Function.update b.entries p s } x ≠ 0 := by
    intro x hxk hxs hx0 hxl
    rw [hlook]
    split
    · next hxp =>
      subst hxp
      rw [hxs rfl]
      exact h.table.home_pos hx0 hxk
    · exact hxl
  have hsib : ∀ m q : Nat, L.kind m = .sibling q → m = p → s = L.home p := by
    rintro m q hm rfl
    obtain hs | ⟨-, -, hk' | hk'⟩ := hs
    · exact hs
    · simp [hm] at hk'
    · simp [hm] at hk'
  have hzero : ∀ m, L.kind m ≠ .header → m ≠ 0 := by
    rintro m hm rfl
    exact hm h.table.header.1
  refine ⟨?_, h.disk, h.cache, ?_, ?_, h.head, h.tail⟩
  · refine { h.table with header := ?_, entry := ?_, table_live := ?_, sibling_live := ?_ }
    · refine ⟨h.table.header.1, h.table.header.2.1, ?_⟩
      have h0 := hlook 0
      simp only [Nat.cast_zero] at h0
      rw [h0]
      split
      · next h0p =>
        obtain hs | hs := hs
        · rw [hs, ← h0p, h.table.header.2.1]
        · exact hs.1
      · exact h.table.header.2.2
    · intro x hx
      rw [hlook] at hx ⊢
      split at hx
      · next hxp =>
        subst hxp
        obtain hs | hs := hs
        · simp [hs, hk]
        · exact absurd hs.1 hx
      · next hxp =>
        simp only [hxp, if_false]
        exact h.table.entry x hx
    · intro x hx
      refine hkeep x (by simp [hx]) ?_ (hzero x (by simp [hx])) (h.table.table_live x hx)
      rintro rfl
      obtain hs | ⟨-, -, hk' | hk'⟩ := hs
      · exact hs
      · simp [hx] at hk'
      · simp [hx] at hk'
    · intro m q hm
      obtain ⟨hl, hq⟩ := h.table.sibling_live m q hm
      exact ⟨hkeep m (by simp [hm]) (hsib m q hm) (hzero m (by simp [hm])) hl, hq⟩
  · intro q w hq
    have hq' : pages q ≠ none := by simp [hq]
    refine (h.content q w hq).imp_right fun hc hcl => ?_
    rw [← hc hcl]
    refine mirrorRead_congr h.disk (h.main_of_client hq') (fun m hm => ?_) fun _ _ => ⟨rfl, rfl⟩
    refine ⟨h.sibling_look hm, ?_⟩
    rw [hlook]
    split
    · next hmp => rw [h.sibling_look hm, hsib m q hm hmp, hmp]
    · rfl
  · intro q hq
    obtain ⟨hqk, hql⟩ := h.client q hq
    refine ⟨hqk, hkeep q (by simp [hqk]) ?_ (hzero q (by simp [hqk])) hql⟩
    rintro rfl
    obtain hs | ⟨-, hn, -⟩ := hs
    · exact hs
    · exact absurd hn hq

end Facts

end Storage
end SphereVFS
