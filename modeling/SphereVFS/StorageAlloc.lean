import SphereVFS.StorageInv

/-!
# SphereVFS.StorageAlloc

`storage_allocate` keeps the invariant.

At the tail, the table is grown first when its last entry is the next one. That entry then belongs
to the new overflow page, so the page that is handed out is the next one or the one after it. From
the queue, the page handed out is the first one of the queue.
-/

namespace SphereVFS
namespace Storage

open Mirror

section Tail

variable {crc : Words → UInt32} {b b' : Backend} {pages : Nat → Option (Option Words)}
  {L L' : Layout}

theorem Inv.extend (h : Inv crc b pages L) (hext : L.Extends L')
    (htable : TableOk b'.pageSize b'.totalPages b'.physicalTail b'.overflowCount (indirLookup b') L')
    (hblank : ∀ p, L.kind p = .none → L'.kind p ≠ .none → b.physicalTail ≤ L'.home p)
    (hlook : ∀ p : Nat, L.kind p ≠ .none → indirLookup b' p = indirLookup b p)
    (htail : b.physicalTail ≤ b'.physicalTail) (hdisk : b'.disk = b.disk)
    (hcached : b'.cached = b.cached) (hcache : b'.cache = b.cache)
    (hhead : b'.freeListHead = b.freeListHead) (hqtail : b'.freeListTail = b.freeListTail) :
    Inv crc b' pages L' := by
  have hqueue' : ∀ p, L.kind p = .queue → L'.kind p = .queue := by
    intro p hp
    rw [(hext.used p (by simp [hp])).1, hp]
  refine ⟨htable, ⟨?_, ?_, ?_⟩, ⟨?_, ?_⟩, ?_, ?_, ?_, ?_⟩
  · intro s hs
    rw [hdisk]
    exact h.disk.fresh s (Nat.le_trans htail hs)
  · intro p hp ph hph
    rw [hdisk] at hph ⊢
    by_cases hn : L.kind p = .none
    · rw [(h.disk.fresh _ (hblank p hn hp.1)).1] at hph
      cases hph
    · obtain ⟨hk, hh⟩ := hext.used p hn
      rw [hh] at hph
      refine (h.disk.mirror p ⟨hn, fun q => hk ▸ hp.2 q⟩ ph hph).imp_right ?_
      rintro ⟨m, hm, hmk, hmh⟩
      refine ⟨m, hm, (hext.sibling_iff m p).2 hmk, ?_⟩
      rwa [(hext.used m (by simp [hmk])).2]
  · intro p hp s hs w hw
    rw [hdisk] at hw
    by_cases hn : L.kind p = .none
    · -- the record of a new page is blank, and no sibling is older than its page
      obtain rfl | ⟨m, hm, -⟩ := hs
      · rw [(h.disk.fresh _ (hblank p hn (by simp [hp]))).2] at hw
        cases hw
      · exact absurd hn (h.table.sibling_live m p ((hext.sibling_iff m p).1 hm)).2
    · rw [(hext.used p hn).1] at hp
      exact (h.disk.queue p hp s ((hext.owns_iff hn s).1 hs) w hw).extends hext
  · intro p e he
    rw [hcache] at he
    rw [hcached]
    exact h.cache.listed p e he
  · intro p e he
    rw [hcache] at he
    exact (h.cache.kind p e he).imp_right fun ⟨hk, hq⟩ => ⟨hqueue' p hk, hq.extends hext⟩
  · intro p w hp
    have hc := h.content p w hp
    have hmain := h.main_of_client (p := p) (by simp [hp])
    rw [hcache, hdisk, (hext.used p hmain.1).2]
    refine ⟨hc.1, fun hclean => ?_⟩
    rw [← hc.2 hclean]
    refine mirrorRead_congr h.disk hmain (fun m hm => ?_) fun _ _ => ⟨rfl, rfl⟩
    exact ⟨h.sibling_look hm, hlook m (by simp [hm])⟩
  · intro p hp
    obtain ⟨hk, hl⟩ := h.client p hp
    have hn : L.kind p ≠ .none := by simp [hk]
    rw [(hext.used p hn).1, hlook p hn]
    exact ⟨hk, hl⟩
  · rw [hhead]
    exact h.head.imp_right (hqueue' _)
  · rw [hqtail]
    exact h.tail.imp_right (hqueue' _)

section Table

variable {pageSize totalPages physicalTail overflowCount totalPages' tail' overflowCount' p s : Nat}
  {look look' : Int → Nat} {k : Kind}

theorem TableOk.claim (h : TableOk pageSize totalPages physicalTail overflowCount look L)
    (hp : L.kind p = .none) (hk : k ≠ .none) (hks : ∀ q, k ≠ .sibling q)
    (hs : physicalTail ≤ s) (hs' : s < tail')
    (hlook : ∀ x : Nat, look' x = if x = p then s else look x)
    (hle : totalPages ≤ totalPages') (hroom : totalPages' <
      inlineEntryCount pageSize + overflowCount' * entriesPerOverflow pageSize)
    (hiff : ∀ q, (L.set p k s).kind q = .table ↔ ∃ i < overflowCount', q = overflowLogical pageSize i)
    (hahead : k = .table ∨ p < totalPages') :
    TableOk pageSize totalPages' tail' overflowCount' look' (L.set p k s) := by
  have hne0 : ∀ q, L.kind q ≠ .none → q ≠ p := by
    rintro q hq rfl
    exact hq hp
  have h0 : 0 ≠ p := hne0 0 (by simp [h.header.1])
  have h1 : 1 ≠ p := hne0 1 (by simp [h.superblock.1])
  have hspos : s ≠ 0 := by
    have := h.home_lt 0 (by simp [h.header.1])
    omega
  have hkind : ∀ q, q ≠ p → (L.set p k s).kind q = L.kind q := by
    intro q hq
    simp [Layout.set, hq]
  have hhome : ∀ q, q ≠ p → (L.set p k s).home q = L.home q := by
    intro q hq
    simp [Layout.set, hq]
  have hkp : (L.set p k s).kind p = k := by simp [Layout.set]
  have hhp : (L.set p k s).home p = s := by simp [Layout.set]
  refine ⟨h.size, Nat.le_trans h.two_le hle, hroom, ?_, ?_, ?_, ?_, ?_, hiff, ?_, ?_, ?_⟩
  · rw [hkind 0 h0, hhome 0 h0]
    have := hlook 0
    rw [if_neg h0] at this
    exact ⟨h.header.1, h.header.2.1, this.trans h.header.2.2⟩
  · rw [hkind 1 h1, hhome 1 h1]
    exact h.superblock
  · intro q hq
    rw [hlook] at hq ⊢
    by_cases hqp : q = p
    · subst hqp
      simp [hkp, hhp, hk]
    · rw [if_neg hqp] at hq ⊢
      rw [hkind q hqp, hhome q hqp]
      exact h.entry q hq
  · intro q r hq hr heq
    by_cases hqp : q = p
    · by_cases hrp : r = p
      · rw [hqp, hrp]
      · rw [hkind r hrp] at hr
        rw [hqp, hhp, hhome r hrp] at heq
        have := h.home_lt r hr
        omega
    · rw [hkind q hqp] at hq
      by_cases hrp : r = p
      · rw [hrp, hhp, hhome q hqp] at heq
        have := h.home_lt q hq
        omega
      · rw [hkind r hrp] at hr
        rw [hhome q hqp, hhome r hrp] at heq
        exact h.home_inj q r hq hr heq
  · intro q hq
    by_cases hqp : q = p
    · rwa [hqp, hhp]
    · rw [hkind q hqp] at hq
      rw [hhome q hqp]
      exact Nat.lt_of_lt_of_le (h.home_lt q hq) (by omega)
  · intro q hqle hq
    by_cases hqp : q = p
    · subst hqp
      obtain rfl | hlt := hahead
      · exact hkp
      · omega
    · rw [hkind q hqp] at hq ⊢
      exact h.ahead q (by omega) hq
  · intro q hq
    rw [hlook]
    by_cases hqp : q = p
    · rwa [if_pos hqp]
    · rw [if_neg hqp]
      rw [hkind q hqp] at hq
      exact h.table_live q hq
  · intro m q hm
    have hmp : m ≠ p := by
      rintro rfl
      rw [hkp] at hm
      exact hks q hm
    rw [hkind m hmp] at hm
    obtain ⟨hl, hq⟩ := h.sibling_live m q hm
    rw [hlook, if_neg hmp, hkind q (hne0 q hq)]
    exact ⟨hl, hq⟩

end Table

/-! ### Growing the table -/

theorem totalEntries_eq (hsize : 120 ≤ b.pageSize) :
    totalEntries b = overflowLogical b.pageSize b.overflowCount + 1 :=
  (overflowLogical_last hsize b.overflowCount).symm

theorem totalEntries_addOverflow (b : Backend) :
    totalEntries (addOverflow b) = totalEntries b + entriesPerOverflow b.pageSize := by
  simp only [totalEntries, addOverflow]
  rw [Nat.succ_mul, Nat.add_assoc]

theorem indirLookup_addOverflow (hsize : 120 ≤ b.pageSize) (x : Nat) :
    indirLookup (addOverflow b) x =
      if x = overflowLogical b.pageSize b.overflowCount then b.physicalTail
      else indirLookup b x := by
  have hlast := totalEntries_eq hsize
  rw [indirLookup_nat, indirLookup_nat, totalEntries_addOverflow]
  by_cases hx : x = overflowLogical b.pageSize b.overflowCount
  · rw [if_pos (by omega), if_pos hx]
    simp [addOverflow, hx]
  · rw [if_neg hx]
    by_cases hlt : x < totalEntries b
    · rw [if_pos (by omega), if_pos hlt]
      simp only [addOverflow, hx, if_false]
      rw [if_neg (by omega)]
    · simp [addOverflow, hx, hlt, Nat.le_of_not_lt hlt]

structure SameStore (b b' : Backend) : Prop where
  pageSize : b'.pageSize = b.pageSize
  disk : b'.disk = b.disk
  cached : b'.cached = b.cached
  cache : b'.cache = b.cache
  head : b'.freeListHead = b.freeListHead
  tail : b'.freeListTail = b.freeListTail
  count : b'.freeListCount = b.freeListCount

theorem SameStore.trans {b1 b2 : Backend} (h1 : SameStore b b1) (h2 : SameStore b1 b2) :
    SameStore b b2 :=
  ⟨h2.pageSize.trans h1.pageSize, h2.disk.trans h1.disk, h2.cached.trans h1.cached,
    h2.cache.trans h1.cache, h2.head.trans h1.head, h2.tail.trans h1.tail, h2.count.trans h1.count⟩

/-- The records that were added to the file: each page that is new in `L'` has one of them. -/
structure NewRecords (b b' : Backend) (L L' : Layout) : Prop where
  tail : ∃ n, b'.physicalTail = b.physicalTail + n * physRecordSize b
  home : ∀ p, L.kind p = .none → L'.kind p ≠ .none →
    ∃ n, L'.home p = b.physicalTail + n * physRecordSize b

theorem NewRecords.fresh {b' : Backend} {L' : Layout} (h : NewRecords b b' L L') (p : Nat) (hp : L.kind p = .none)
    (hp' : L'.kind p ≠ .none) : b.physicalTail ≤ L'.home p := by
  obtain ⟨n, hn⟩ := h.home p hp hp'
  omega

theorem NewRecords.set {b' : Backend} {p : Nat} {k : Kind}
    (htail : b'.physicalTail = b.physicalTail + physRecordSize b) :
    NewRecords b b' L (L.set p k b.physicalTail) := by
  refine ⟨⟨1, by rw [htail, Nat.one_mul]⟩, fun q hq hq' => ⟨0, ?_⟩⟩
  by_cases hqp : q = p
  · simp [Layout.set, hqp]
  · simp [Layout.set, hqp, hq] at hq'

theorem NewRecords.trans {b1 b2 : Backend} {L1 L2 : Layout} (h1 : NewRecords b b1 L L1)
    (h2 : NewRecords b1 b2 L1 L2) (hext : L1.Extends L2) (hsize : b1.pageSize = b.pageSize) :
    NewRecords b b2 L L2 := by
  have hrec : physRecordSize b1 = physRecordSize b := by rw [physRecordSize, physRecordSize, hsize]
  obtain ⟨n, hn⟩ := h1.tail
  -- a record after the first growth is a record after the start
  have hshift : ∀ s, (∃ m, s = b1.physicalTail + m * physRecordSize b1) →
      ∃ m, s = b.physicalTail + m * physRecordSize b := by
    rintro s ⟨m, rfl⟩
    exact ⟨n + m, by rw [hn, hrec, Nat.add_mul, Nat.add_assoc]⟩
  refine ⟨hshift _ h2.tail, fun p hp hp' => ?_⟩
  by_cases hp1 : L1.kind p = .none
  · exact hshift _ (h2.home p hp1 hp')
  · rw [(hext.used p hp1).2]
    exact h1.home p hp hp1

structure Grown (crc : Words → UInt32) (pages : Nat → Option (Option Words)) (b b' : Backend)
    (L L' : Layout) : Prop where
  inv : Inv crc b' pages L'
  ext : L.Extends L'
  same : SameStore b b'
  totalPages : b'.totalPages = b.totalPages
  tail : b.physicalTail ≤ b'.physicalTail
  look : ∀ p : Nat, L.kind p ≠ .none → indirLookup b' p = indirLookup b p
  records : NewRecords b b' L L'
  others : ∀ p, L.kind p = .none → L'.kind p = .none ∨ L'.kind p = .table

structure Roomy (crc : Words → UInt32) (pages : Nat → Option (Option Words)) (b b' : Backend)
    (L L' : Layout) : Prop extends Grown crc pages b b' L L' where
  room : b'.totalPages + 1 < totalEntries b'

theorem Grown.refl (h : Inv crc b pages L) : Grown crc pages b b L L :=
  ⟨h, .refl L, ⟨rfl, rfl, rfl, rfl, rfl, rfl, rfl⟩, rfl, Nat.le_refl _, fun _ _ => rfl,
    ⟨⟨0, by simp⟩, fun _ hp hp' => absurd hp hp'⟩, fun _ hp => .inl hp⟩

theorem Grown.trans {b1 b2 : Backend} {L1 L2 : Layout} (h1 : Grown crc pages b b1 L L1)
    (h2 : Grown crc pages b1 b2 L1 L2) : Grown crc pages b b2 L L2 := by
  refine ⟨h2.inv, h1.ext.trans h2.ext, h1.same.trans h2.same, h2.totalPages.trans h1.totalPages,
    Nat.le_trans h1.tail h2.tail, fun p hp => ?_, h1.records.trans h2.records h2.ext h1.same.pageSize,
    fun p hp => ?_⟩
  · rw [h2.look p (by rwa [(h1.ext.used p hp).1]), h1.look p hp]
  · obtain hp1 | hp1 := h1.others p hp
    · exact h2.others p hp1
    · rw [(h2.ext.used p (by simp [hp1])).1]
      exact .inr hp1

theorem Inv.addOverflow (h : Inv crc b pages L) :
    Roomy crc pages b (addOverflow b) L
      (L.set (overflowLogical b.pageSize b.overflowCount) .table b.physicalTail) := by
  have hlast := totalEntries_eq h.table.size
  have hepo := entriesPerOverflow_large h.table.size
  have hroom : b.totalPages < totalEntries b := h.table.room
  have hrec : 0 < physRecordSize b := by
    simp [physRecordSize, pageHeaderSize]
  -- the last entry is not in use: only an overflow page could have it
  have hunused : L.kind (overflowLogical b.pageSize b.overflowCount) = .none := by
    by_contra hk
    obtain ⟨i, hi, heq⟩ := (h.table.table_iff _).1 (h.table.ahead _ (by omega) hk)
    have : overflowLogical b.pageSize i + _ ≤ _ := overflowLogical_lt hi
    omega
  have hext := Layout.Extends.set hunused (k := .table) (by simp) b.physicalTail
  have hiff : ∀ q,
      (L.set (overflowLogical b.pageSize b.overflowCount) .table b.physicalTail).kind q = .table ↔
        ∃ i < b.overflowCount + 1, q = overflowLogical b.pageSize i := by
    intro q
    by_cases hq : q = overflowLogical b.pageSize b.overflowCount
    · subst hq
      simp only [Layout.set, Function.update_self, true_iff]
      exact ⟨b.overflowCount, Nat.lt_succ_self _, rfl⟩
    · simp only [Layout.set, Function.update_of_ne hq, h.table.table_iff q]
      constructor
      · rintro ⟨i, hi, heq⟩
        exact ⟨i, Nat.lt_succ_of_lt hi, heq⟩
      · rintro ⟨i, hi, heq⟩
        obtain hi | rfl := Nat.lt_succ_iff_lt_or_eq.1 hi
        · exact ⟨i, hi, heq⟩
        · exact absurd heq hq
  have hlook : ∀ p : Nat, L.kind p ≠ .none → indirLookup (Storage.addOverflow b) p =
      indirLookup b p := by
    intro p hp
    rw [indirLookup_addOverflow h.table.size, if_neg]
    rintro rfl
    exact hp hunused
  have htable : TableOk (Storage.addOverflow b).pageSize (Storage.addOverflow b).totalPages
      (Storage.addOverflow b).physicalTail (Storage.addOverflow b).overflowCount
      (indirLookup (Storage.addOverflow b))
      (L.set (overflowLogical b.pageSize b.overflowCount) .table b.physicalTail) := by
    refine h.table.claim hunused (by simp) (by simp) (Nat.le_refl _)
      (Nat.lt_add_of_pos_right hrec) (indirLookup_addOverflow h.table.size) (Nat.le_refl _) ?_ hiff
      (.inl rfl)
    have := totalEntries_addOverflow b
    rw [totalEntries] at this
    show b.totalPages < _
    simp only [Storage.addOverflow] at this ⊢
    omega
  refine ⟨⟨h.extend hext htable ?_ hlook (Nat.le_add_right _ _) rfl rfl rfl rfl rfl, hext,
    ⟨rfl, rfl, rfl, rfl, rfl, rfl, rfl⟩, rfl, Nat.le_add_right _ _, hlook, .set rfl, fun p hp => ?_⟩, ?_⟩
  · intro p hp hp'
    by_cases hpl : p = overflowLogical b.pageSize b.overflowCount
    · simp [Layout.set, hpl]
    · simp [Layout.set, hpl, hp] at hp'
  · by_cases hpl : p = overflowLogical b.pageSize b.overflowCount
    · simp [Layout.set, hpl]
    · simp [Layout.set, hpl, hp]
  · show b.totalPages + 1 < _
    rw [totalEntries_addOverflow]
    omega

theorem Inv.growTable (r n : Nat) : ∀ {b : Backend} {L : Layout}, Inv crc b pages L →
    ∃ L', Grown crc pages b (growTable r n b) L L' := by
  induction n with
  | zero => exact fun h => ⟨_, .refl h⟩
  | succ n ih =>
    intro b L h
    rw [Storage.growTable]
    split
    · have h1 := h.addOverflow.toGrown
      obtain ⟨L', h2⟩ := ih h1.inv
      exact ⟨L', h1.trans h2⟩
    · exact ⟨L, .refl h⟩

theorem Inv.ensureCapacity (h : Inv crc b pages L) :
    ∃ L', Roomy crc pages b (indirEnsureCapacity b) L L' := by
  rw [indirEnsureCapacity, Storage.growTable]
  by_cases hfull : totalEntries b ≤ b.totalPages + 1
  · have hgrown := h.addOverflow
    have hstop : ¬ totalEntries (Storage.addOverflow b) ≤ b.totalPages + 1 :=
      Nat.not_le_of_lt hgrown.room
    rw [if_pos hfull, Storage.growTable, if_neg hstop]
    exact ⟨_, hgrown⟩
  · rw [if_neg hfull]
    exact ⟨L, .refl h, Nat.lt_of_not_le hfull⟩

/-! ### The claim loop -/

theorem Inv.overflow_entry (h : Inv crc b pages L) :
    ∀ i < b.overflowCount, b.entries (overflowLogical b.pageSize i) ≠ 0 := by
  intro i hi h0
  have hlive := h.table.table_live _ ((h.table.table_iff _).2 ⟨i, hi, rfl⟩)
  rw [indirLookup_nat, h0, ite_self] at hlive
  exact hlive rfl

theorem needsGrow_of_room (hsize : 120 ≤ b.pageSize) (htwo : 2 ≤ b.totalPages)
    (hroom : b.totalPages + 1 < totalEntries b)
    (hover : ∀ i < b.overflowCount, b.entries (overflowLogical b.pageSize i) ≠ 0) :
    needsGrow b = false := by
  have hmax : max b.totalPages 2 = b.totalPages := Nat.max_eq_left htwo
  have hepo := entriesPerOverflow_large hsize
  have hin := inlineEntryCount_large hsize
  rw [totalEntries] at hroom
  simp only [needsGrow, hmax]
  split
  · -- the last inline entry is that of overflow page 0
    by_cases hlast : b.totalPages = inlineEntryCount b.pageSize - 1
    · have hcount : 0 < b.overflowCount := by
        rcases Nat.eq_zero_or_pos b.overflowCount with h0 | h0
        · rw [h0, Nat.zero_mul] at hroom
          omega
        · exact h0
      have := hover 0 hcount
      rw [overflowLogical, Nat.zero_mul, Nat.add_zero, ← hlast] at this
      simp [this]
    · simp [hlast]
  · next hge =>
    have hdm := Nat.div_add_mod (b.totalPages - inlineEntryCount b.pageSize)
      (entriesPerOverflow b.pageSize)
    have hmod := Nat.mod_lt (b.totalPages - inlineEntryCount b.pageSize)
      (show 0 < entriesPerOverflow b.pageSize by omega)
    set q := (b.totalPages - inlineEntryCount b.pageSize) / entriesPerOverflow b.pageSize
    set r := (b.totalPages - inlineEntryCount b.pageSize) % entriesPerOverflow b.pageSize
    rw [Nat.mul_comm] at hdm
    have hq : q < b.overflowCount := by
      by_contra hle
      have := Nat.mul_le_mul_right (entriesPerOverflow b.pageSize) (Nat.le_of_not_lt hle)
      omega
    by_cases hr : r = entriesPerOverflow b.pageSize - 1
    · -- the last entry of overflow page q is that of overflow page q + 1
      have hlog : b.totalPages = overflowLogical b.pageSize (q + 1) := by
        rw [overflowLogical, Nat.succ_mul]
        omega
      have hq' : q + 1 < b.overflowCount := by
        by_contra hle
        have := overflowLogical_last hsize b.overflowCount
        rw [show b.overflowCount = q + 1 by omega] at this hroom
        omega
      have := hover (q + 1) hq'
      rw [← hlog] at this
      simp [this, Nat.not_le_of_lt hq]
    · simp [hr, Nat.not_le_of_lt hq]

theorem claimLoop_succ (offset n : Nat) (htwo : 2 ≤ b.totalPages)
    (hgrow : needsGrow b = false) (hroom : b.totalPages < totalEntries b) :
    claimLoop offset (n + 1) b =
      if indirLookup b b.totalPages = 0 then
        (some b.totalPages, { b with
          totalPages := b.totalPages + 1
          entries := Function.update b.entries b.totalPages offset })
      else claimLoop offset n { b with totalPages := b.totalPages + 1 } := by
  have hmax : max b.totalPages 2 = b.totalPages := Nat.max_eq_left htwo
  have hlook : indirLookup { b with totalPages := b.totalPages + 1 } b.totalPages =
      indirLookup b b.totalPages := rfl
  have htotal : totalEntries { b with totalPages := b.totalPages + 1 } = totalEntries b := rfl
  rw [claimLoop, hgrow]
  simp only [hmax, tryClaimEntry, hlook, htotal, hroom, if_true]
  by_cases h0 : indirLookup b b.totalPages = 0
  · simp [h0]
  · simp [h0]

/-- Page `q` was taken at the tail, for a page of kind `k`. -/
structure TailAdvance (crc : Words → UInt32) (pages : Nat → Option (Option Words)) (k : Kind)
    (b b' : Backend) (L L' : Layout) (q : Nat) : Prop where
  inv : Inv crc b' pages L'
  ext : L.Extends L'
  same : SameStore b b'
  look : ∀ p : Nat, L.kind p ≠ .none → indirLookup b' p = indirLookup b p
  unused : L.kind q = .none
  kind : L'.kind q = k
  entry : indirLookup b' q ≠ 0
  ge : b.totalPages ≤ q
  lt : q < b'.totalPages
  blank : b'.disk.hdr (L'.home q) = none ∧ b'.disk.pay (L'.home q) = none
  records : NewRecords b b' L L'
  others : ∀ p, L.kind p = .none → p ≠ q → L'.kind p = .none ∨ L'.kind p = .table

structure Claimed (crc : Words → UInt32) (pages : Nat → Option (Option Words)) (k : Kind)
    (b b' : Backend) (L L' : Layout) (q : Nat) : Prop where
  inv : Inv crc b' pages L'
  ext : L.Extends L'
  same : SameStore b b'
  look : ∀ p : Nat, L.kind p ≠ .none → indirLookup b' p = indirLookup b p
  kind : L'.kind q = k
  entry : indirLookup b' q ≠ 0
  blank : b'.disk.hdr (L'.home q) = none ∧ b'.disk.pay (L'.home q) = none
  records : NewRecords b b' L L'
  others : ∀ p, L.kind p = .none → p ≠ q → L'.kind p = .none

theorem Inv.claim (h : Inv crc b pages L) {k : Kind} (hk : k = .client ∨ k = .queue) {q n : Nat}
    (hunused : L.kind q = .none) (hle : b.totalPages ≤ n) (hlt : q < n) (hroom : n < totalEntries b) :
    Claimed crc pages k b
      { b with
        physicalTail := b.physicalTail + physRecordSize b
        totalPages := n
        entries := Function.update b.entries q b.physicalTail }
      L (L.set q k b.physicalTail) q := by
  have hks : k ≠ .none ∧ k ≠ .table ∧ ∀ r, k ≠ .sibling r := by
    obtain rfl | rfl := hk <;> simp
  have hext := Layout.Extends.set hunused hks.2.2 b.physicalTail
  have hrec : 0 < physRecordSize b := by
    simp [physRecordSize, pageHeaderSize]
  have hpos : b.physicalTail ≠ 0 := by
    have := h.table.home_lt 0 (by simp [h.table.header.1])
    omega
  set b' : Backend := { b with
    physicalTail := b.physicalTail + physRecordSize b
    totalPages := n
    entries := Function.update b.entries q b.physicalTail }
  have hlook' : ∀ x : Nat, indirLookup b' x =
      if x = q then b.physicalTail else indirLookup b x := by
    intro x
    have htotal : totalEntries b' = totalEntries b := rfl
    rw [indirLookup_nat, indirLookup_nat, htotal]
    by_cases hx : x = q
    · subst hx
      rw [if_pos (by omega), if_pos rfl]
      exact Function.update_self ..
    · rw [if_neg hx]
      show (if x < totalEntries b then Function.update b.entries q b.physicalTail x else 0) = _
      rw [Function.update_of_ne hx]
  have hkeep : ∀ p : Nat, L.kind p ≠ .none → indirLookup b' p = indirLookup b p := by
    intro p hp
    rw [hlook', if_neg]
    rintro rfl
    exact hp hunused
  have hiff : ∀ x, (L.set q k b.physicalTail).kind x = .table ↔
      ∃ i < b.overflowCount, x = overflowLogical b.pageSize i := by
    intro x
    rw [← h.table.table_iff x]
    by_cases hx : x = q
    · simp [Layout.set, hx, hunused, hks.2.1]
    · simp [Layout.set, hx]
  have htable := h.table.claim hunused hks.1 hks.2.2 (Nat.le_refl _)
    (Nat.lt_add_of_pos_right hrec) hlook' hle hroom hiff (.inr hlt)
  refine ⟨h.extend hext htable ?_ hkeep (Nat.le_add_right _ _) rfl rfl rfl rfl rfl, hext,
    ⟨rfl, rfl, rfl, rfl, rfl, rfl, rfl⟩, hkeep, by simp [Layout.set], ?_, ?_, .set rfl,
    fun p hp hpq => by simp [Layout.set, hpq, hp]⟩
  · intro p hp hp'
    by_cases hpq : p = q
    · simp [Layout.set, hpq]
    · simp [Layout.set, hpq, hp] at hp'
  · rw [hlook', if_pos rfl]
    exact hpos
  · simp only [Layout.set, Function.update_self]
    exact h.disk.fresh _ (Nat.le_refl _)

theorem Inv.claimTail (h : Inv crc b pages L) {k : Kind} (hk : k = .client ∨ k = .queue) {q : Nat}
    (hge : b.totalPages ≤ q) (hroom : q + 1 < totalEntries b) (hlook : indirLookup b q = 0) :
    TailAdvance crc pages k b
      { b with
        physicalTail := b.physicalTail + physRecordSize b
        totalPages := q + 1
        entries := Function.update b.entries q b.physicalTail }
      L (L.set q k b.physicalTail) q := by
  have hunused := h.table.unused hge hlook
  have hc := h.claim hk hunused (Nat.le_succ_of_le hge) (Nat.lt_succ_self q) hroom
  exact ⟨hc.inv, hc.ext, hc.same, hc.look, hunused, hc.kind, hc.entry, hge, Nat.lt_succ_self q, hc.blank,
    hc.records, fun p hp hpq => .inl (hc.others p hp hpq)⟩

theorem TailAdvance.queue_old {k : Kind} {b' : Backend} {L' : Layout} {p q : Nat}
    (h : TailAdvance crc pages k b b' L L' q) (hpq : p ≠ q ∨ k ≠ .queue) (hp : L'.kind p = .queue) :
    L.kind p = .queue ∧ indirLookup b' p = indirLookup b p := by
  have hne : p ≠ q := by
    rintro rfl
    rw [h.kind] at hp
    exact hpq.elim (absurd rfl) (absurd hp)
  have hused : L.kind p ≠ .none := by
    intro hnone
    obtain hk | hk := h.others p hnone hne <;> simp [hk] at hp
  exact ⟨(h.ext.used p hused).1 ▸ hp, h.look p hused⟩

theorem Inv.tailAdvance (h : Inv crc b pages L) {k : Kind} (hk : k = .client ∨ k = .queue) :
    ∃ q b' L', storageAllocateTailAdvance b = (some q, b') ∧
      TailAdvance crc pages k b b' L L' q := by
  obtain ⟨L1, hr⟩ := h.ensureCapacity
  rw [storageAllocateTailAdvance]
  set b1 := indirEnsureCapacity b
  -- what the claim at `q` gives, seen from `b1`, is what it gives seen from `b`
  have hfinish : ∀ q, b1.totalPages ≤ q → q + 1 < totalEntries b1 → indirLookup b1 q = 0 →
      ∃ L', TailAdvance crc pages k b
        { b1 with
          physicalTail := b1.physicalTail + physRecordSize b1
          totalPages := q + 1
          entries := Function.update b1.entries q b1.physicalTail } L L' q := by
    intro q hge hroom hlook
    have ht := hr.inv.claimTail hk hge hroom hlook
    refine ⟨_, ht.inv, hr.ext.trans ht.ext, hr.same.trans ht.same, ?_, ?_, ht.kind, ht.entry,
      hr.totalPages ▸ hge, ht.lt, ht.blank, hr.records.trans ht.records ht.ext hr.same.pageSize, ?_⟩
    · intro p hp
      rw [ht.look p (by rwa [(hr.ext.used p hp).1]), hr.look p hp]
    · by_contra hused
      exact absurd ht.unused (by rwa [(hr.ext.used q hused).1])
    · intro p hp hpq
      obtain h1 | h1 := hr.others p hp
      · exact ht.others p h1 hpq
      · rw [(ht.ext.used p (by simp [h1])).1]
        exact .inr h1
  have htwo := hr.inv.table.two_le
  have hgrow := needsGrow_of_room (b := { b1 with
    physicalTail := b1.physicalTail + physRecordSize b1 }) hr.inv.table.size htwo hr.room
    hr.inv.overflow_entry
  have hround := claimLoop_succ (b := { b1 with
    physicalTail := b1.physicalTail + physRecordSize b1 }) b1.physicalTail 2 htwo hgrow
    (Nat.lt_of_succ_lt hr.room)
  by_cases h0 : indirLookup b1 b1.totalPages = 0
  · obtain ⟨L', ht⟩ := hfinish b1.totalPages (Nat.le_refl _) hr.room h0
    exact ⟨_, _, L', hround.trans (if_pos h0), ht⟩
  · -- the entry is that of an overflow page, and the next one is free
    obtain ⟨i, hi, htp⟩ := (hr.inv.table.table_iff _).1
      (hr.inv.table.ahead _ (Nat.le_refl _) (hr.inv.table.entry _ h0).2)
    have hepo := entriesPerOverflow_large hr.inv.table.size
    have hroom2 : b1.totalPages + 1 + 1 < totalEntries b1 := by
      have := totalEntries_eq hr.inv.table.size
      have : overflowLogical b1.pageSize i + _ ≤ _ := overflowLogical_lt hi
      omega
    have hnext : indirLookup b1 ((b1.totalPages + 1 : Nat) : Int) = 0 := by
      by_contra hne
      obtain ⟨j, hj, htp'⟩ := (hr.inv.table.table_iff _).1
        (hr.inv.table.ahead _ (Nat.le_succ _) (hr.inv.table.entry _ hne).2)
      obtain hij | rfl | hij := Nat.lt_trichotomy i j
      · have : overflowLogical b1.pageSize i + _ ≤ _ := overflowLogical_lt hij
        omega
      · omega
      · have : overflowLogical b1.pageSize j + _ ≤ _ := overflowLogical_lt hij
        omega
    have hgrow2 := needsGrow_of_room (b := { b1 with
      physicalTail := b1.physicalTail + physRecordSize b1
      totalPages := b1.totalPages + 1 }) hr.inv.table.size (Nat.le_succ_of_le htwo) hroom2
      hr.inv.overflow_entry
    obtain ⟨L', ht⟩ := hfinish (b1.totalPages + 1) (Nat.le_succ _) hroom2 hnext
    have hround2 := claimLoop_succ (b := { b1 with
      physicalTail := b1.physicalTail + physRecordSize b1
      totalPages := b1.totalPages + 1 }) b1.physicalTail 1 (Nat.le_succ_of_le htwo) hgrow2
      (Nat.lt_of_succ_lt hroom2)
    exact ⟨_, _, L', (hround.trans (if_neg h0)).trans (hround2.trans (if_pos hnext)), ht⟩

end Tail

end Storage
end SphereVFS
