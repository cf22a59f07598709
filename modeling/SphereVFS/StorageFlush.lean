import SphereVFS.StorageMirror

/-!
# SphereVFS.StorageFlush

`cache_flush_all`, `cache_evict_all` and `storage_flush`: they keep the invariant, and after a flush
of the cache every page of the client is clean, which means that it reads from the file as it did
from the cache.

A page is written at most once per flush, so it is enough that no generation has come to its last
value before the flush.
-/

namespace SphereVFS
namespace Storage

open Mirror

/-! ## The number of pages never goes down -/

section Mono

variable (crc : Words → UInt32)

@[simp] theorem cacheInsert_totalPages (b : Backend) (p : Nat) (w : Words) (pr : Priority)
    (d : Bool) : (cacheInsert b p w pr d).totalPages = b.totalPages := by
  rw [cacheInsert]
  split <;> rfl

@[simp] theorem storageRead_totalPages (b : Backend) (p : Nat) :
    (storageRead crc b p).2.totalPages = b.totalPages := by
  rw [storageRead]
  split
  · rfl
  · split
    · rfl
    · split <;> simp

@[simp] theorem indirSet_totalPages (b : Backend) (p s : Nat) :
    (indirSet b p s).totalPages = b.totalPages := by
  rw [indirSet]
  split
  · rfl
  · split <;> rfl

@[simp] theorem readFreeListNext_totalPages (b : Backend) (p : Nat) :
    (readFreeListNext crc b p).2.totalPages = b.totalPages := by
  have hread := storageRead_totalPages crc b p
  rw [readFreeListNext]
  split <;> simp_all

@[simp] theorem readFreeListCount_totalPages (b : Backend) (p : Nat) :
    (readFreeListCount crc b p).2.totalPages = b.totalPages := by
  have hread := storageRead_totalPages crc b p
  rw [readFreeListCount]
  split <;> simp_all

@[simp] theorem readFreeListEntry_totalPages (b : Backend) (p i : Nat) :
    (readFreeListEntry crc b p i).2.totalPages = b.totalPages := by
  have hread := storageRead_totalPages crc b p
  rw [readFreeListEntry]
  split <;> simp_all

@[simp] theorem advanceHead_totalPages (b : Backend) (p : Nat) :
    (advanceHead crc b p).totalPages = b.totalPages := by
  simp [advanceHead]

theorem tryClaimEntry_totalPages {b b' : Backend} {p s : Nat} (h : tryClaimEntry b p s = some b') :
    b'.totalPages = b.totalPages := by
  rw [tryClaimEntry] at h
  split at h
  · cases h
  · split at h
    · cases h
      rfl
    · cases h

@[simp] theorem popEntry_totalPages (b : Backend) (p i q s : Nat) :
    (popEntry crc b p i q s).2.totalPages = b.totalPages := by
  have hadv : (if i = 0 then advanceHead crc (cacheModify b p fun e =>
      { e with payload := Function.update e.payload 1 i }) p else (cacheModify b p fun e =>
      { e with payload := Function.update e.payload 1 i })).totalPages = b.totalPages := by
    split
    · simp [cacheModify]
    · rfl
  rw [popEntry, claimPopped]
  split
  · exact hadv
  · next b' hb' => exact (tryClaimEntry_totalPages hb').trans hadv

theorem dequeue_totalPages (n : Nat) : ∀ b : Backend,
    (dequeueFromFreeList crc n b).2.totalPages = b.totalPages := by
  induction n with
  | zero => exact fun _ => rfl
  | succ n ih =>
    intro b
    have hcount := readFreeListCount_totalPages crc b b.freeListHead
    rw [dequeueFromFreeList]
    split
    · rfl
    · split
      · next heq => simpa [heq] using hcount
      · next heq =>
        rw [ih, advanceHead_totalPages]
        simpa [heq] using hcount
      · next i b1 heq =>
        have hentry := readFreeListEntry_totalPages crc b1 b.freeListHead i
        have hread := storageRead_totalPages crc
          (readFreeListEntry crc b1 b.freeListHead i).2 b.freeListHead
        rw [heq] at hcount
        simp only
        split
        · exact hentry.trans hcount
        · split
          · next heq3 =>
            rw [heq3] at hread
            rw [popEntry_totalPages]
            exact hread.trans (hentry.trans hcount)
          · next heq3 =>
            rw [heq3] at hread
            exact hread.trans (hentry.trans hcount)

@[simp] theorem growTable_totalPages (r n : Nat) : ∀ b : Backend,
    (growTable r n b).totalPages = b.totalPages := by
  induction n with
  | zero => exact fun _ => rfl
  | succ n ih =>
    intro b
    rw [growTable]
    split
    · exact ih _
    · rfl

theorem claimLoop_totalPages (s n : Nat) : ∀ b : Backend,
    b.totalPages ≤ (claimLoop s n b).2.totalPages := by
  induction n with
  | zero => exact fun _ => Nat.le_refl _
  | succ n ih =>
    intro b
    have hmax := Nat.le_max_left b.totalPages 2
    rw [claimLoop]
    split
    · have hih := ih (indirEnsureCapacity b)
      rwa [indirEnsureCapacity, growTable_totalPages] at hih
    · simp only
      split
      · next b2 heq =>
        have := tryClaimEntry_totalPages heq
        simp only at this ⊢
        omega
      · have hih := ih { b with totalPages := max b.totalPages 2 + 1 }
        simp only at hih
        omega

theorem storageAllocate_totalPages (b : Backend) :
    b.totalPages ≤ (storageAllocate crc b).2.totalPages := by
  have hdeq := dequeue_totalPages crc 1000 b
  rw [storageAllocate]
  split
  · next heq =>
    rw [heq] at hdeq
    exact Nat.le_of_eq hdeq.symm
  · next b1 heq =>
    rw [heq] at hdeq
    have hclaim := claimLoop_totalPages (indirEnsureCapacity b1).physicalTail 3
      { indirEnsureCapacity b1 with
        physicalTail := (indirEnsureCapacity b1).physicalTail +
          physRecordSize (indirEnsureCapacity b1) }
    rw [← hdeq]
    refine Nat.le_trans ?_ hclaim
    simp [indirEnsureCapacity]

theorem mirrorWrite_totalPages (b : Backend) (p : Nat) (payload : Backend → Words) (flags : Nat) :
    b.totalPages ≤ (mirrorWrite crc b p payload flags).2.totalPages := by
  rw [mirrorWrite]
  by_cases hc : (currentHeader b.disk (physicalOffset b p)).generation ≠ 0 ∧
      (currentHeader b.disk (physicalOffset b p)).mirrorPage = -1
  · have halloc := storageAllocate_totalPages crc b
    simp only [if_pos hc]
    split <;> exact halloc
  · simp only [if_neg hc]
    split <;> exact Nat.le_refl _

theorem flushPage_totalPages (pr : Priority) (b : Backend) (p : Nat) :
    b.totalPages ≤ (flushPage crc pr b p).totalPages := by
  rw [flushPage]
  split
  · exact Nat.le_refl _
  · split
    · exact Nat.le_refl _
    · have hw := mirrorWrite_totalPages crc b p (cachedPayload p) pr.flags
      split <;> next heq =>
        rw [heq] at hw
        exact hw

theorem flushPages_totalPages (pr : Priority) (l : List Nat) : ∀ b : Backend,
    b.totalPages ≤ (l.foldl (flushPage crc pr) b).totalPages := by
  induction l with
  | nil => exact fun _ => Nat.le_refl _
  | cons p l ih => exact fun b => Nat.le_trans (flushPage_totalPages crc pr b p) (ih _)

theorem flushOverflow_totalPages (n : Nat) : ∀ (i : Nat) (b : Backend),
    b.totalPages ≤ (flushOverflow crc n i b).totalPages := by
  induction n with
  | zero => exact fun _ _ => Nat.le_refl _
  | succ n ih =>
    intro i b
    rw [flushOverflow]
    split
    · exact Nat.le_trans (mirrorWrite_totalPages crc b _ _ _) (ih _ _)
    · exact Nat.le_refl _

end Mono

/-! ## One page -/

section Page

variable {crc : Words → UInt32} {b b' : Backend} {pages : Nat → Option (Option Words)}
  {L L' : Layout}

def GenOk (pages : Nat → Option (Option Words)) (b : Backend) (L : Layout) : Prop :=
  ∀ p e, pages p ≠ none → b.cache p = some e → e.dirty = true →
    ∀ s, L.Owns p s → ∀ ph, b.disk.hdr s = some ph → ph.generation + 1 < 2 ^ 32

structure Flushed (crc : Words → UInt32) (pages : Nat → Option (Option Words)) (b b' : Backend)
    (L' : Layout) : Prop where
  inv : Inv crc b' pages L'
  sound : QueueSound crc b'
  gen : GenOk pages b' L'
  entry : ∀ p, pages p ≠ none → ∀ e', b'.cache p = some e' →
    ∃ e, b.cache p = some e ∧ e'.priority = e.priority ∧ (e'.dirty = true → e.dirty = true)

theorem Flushed.refl (h : Inv crc b pages L) (hs : QueueSound crc b) (hg : GenOk pages b L) :
    Flushed crc pages b b L :=
  ⟨h, hs, hg, fun _ _ e' he' => ⟨e', he', rfl, id⟩⟩

theorem Flushed.trans {b1 b2 : Backend} {L1 L2 : Layout} (h1 : Flushed crc pages b b1 L1)
    (h2 : Flushed crc pages b1 b2 L2) : Flushed crc pages b b2 L2 := by
  refine ⟨h2.inv, h2.sound, h2.gen, fun p hp e2 he2 => ?_⟩
  obtain ⟨e1, he1, hpr1, hd1⟩ := h2.entry p hp e2 he2
  obtain ⟨e, he, hpr, hd⟩ := h1.entry p hp e1 he1
  exact ⟨e, he, hpr1.trans hpr, hd ∘ hd1⟩

/-- The pages of the client that the cache has with priority `pr` are clean. -/
def Clean (pages : Nat → Option (Option Words)) (pr : Priority) (b : Backend) : Prop :=
  ∀ p e, pages p ≠ none → b.cache p = some e → e.priority = pr → e.dirty = false

theorem Flushed.clean {pr : Priority} (h : Flushed crc pages b b' L') (hc : Clean pages pr b) :
    Clean pages pr b' := by
  intro p e' hp he' hpr
  obtain ⟨e, he, hpr', hd⟩ := h.entry p hp e' he'
  have hclean := hc p e hp he (hpr' ▸ hpr)
  rcases hde : e'.dirty with _ | _
  · rfl
  · simp [hd hde] at hclean

def markClean (b : Backend) (p : Nat) : Backend :=
  cacheModify b p fun e => { e with dirty := false }

theorem markClean_cache {p x : Nat} {e' : CacheEntry} (he' : (markClean b p).cache x = some e') :
    ∃ e, b.cache x = some e ∧ e'.payload = e.payload ∧ e'.priority = e.priority ∧
      (e'.dirty = true → e.dirty = true ∧ x ≠ p) := by
  simp only [markClean, cacheModify] at he'
  by_cases hx : x = p
  · subst hx
    rw [Function.update_self, Option.map_eq_some_iff] at he'
    obtain ⟨e, he, rfl⟩ := he'
    exact ⟨e, he, rfl, rfl, by simp⟩
  · rw [Function.update_of_ne hx] at he'
    exact ⟨e', he', rfl, rfl, fun hd => ⟨hd, hx⟩⟩

theorem Inv.markClean (h : Inv crc b pages L) {p : Nat} {e : CacheEntry} (he : b.cache p = some e)
    (hread : pages p ≠ none →
      mirrorRead crc (indirLookup b) b.disk (L.home p) = .ok e.payload) :
    Inv crc (Storage.markClean b p) pages L := by
  apply h.withCache
  · constructor
    · intro x e' he'
      obtain ⟨e0, he0, -⟩ := markClean_cache he'
      exact h.cache.listed x e0 he0
    · intro x e' he'
      obtain ⟨e0, he0, hpay, -⟩ := markClean_cache he'
      rw [hpay]
      exact h.cache.kind x e0 he0
  · intro x w hx
    obtain ⟨hpay, hclean⟩ := h.content x w hx
    refine ⟨fun e' he' => ?_, fun hc => ?_⟩
    · obtain ⟨e0, he0, hp0, -⟩ := markClean_cache he'
      rw [hp0]
      exact hpay e0 he0
    · by_cases hxp : x = p
      · subst hxp
        rw [hread (by simp [hx]), hpay e he]
      · refine hclean fun e0 he0 => hc e0 ?_
        simpa [hxp] using he0

theorem Inv.peek_markClean (h : Inv crc b pages L) {x : Nat} (hx : L.Main x) (p : Nat) :
    peek crc (Storage.markClean b p) x = peek crc b x := by
  by_cases hxp : x = p
  · subst hxp
    rcases hc : b.cache x with _ | e
    · refine h.peek_congr hx rfl ?_ rfl (fun _ _ => rfl) fun _ _ => ⟨rfl, rfl⟩
      simp [Storage.markClean, cacheModify, hc]
    · have hc' : (Storage.markClean b x).cache x = some { e with dirty := false } := by
        simp [Storage.markClean, cacheModify, hc]
      rw [peek_cached hc, peek_cached hc']
  · refine h.peek_congr hx rfl ?_ rfl (fun _ _ => rfl) fun _ _ => ⟨rfl, rfl⟩
    simp [Storage.markClean, cacheModify, hxp]

theorem Inv.sound_markClean (h : Inv crc b pages L) (hs : QueueSound crc b) (p : Nat) :
    QueueSound crc (Storage.markClean b p) :=
  h.sound_congr hs rfl rfl (Nat.le_refl _) (fun _ hx => h.peek_markClean (L.main_of_queue hx) p)
    fun _ _ hq => hq

theorem Mirrored.flushed {o p : Nat} {e : CacheEntry} (hm : Mirrored crc pages b b' L L' o)
    (hg : GenOk pages b L) (ho : pages o ≠ none → o = p) (he : b'.cache p = some e)
    (hread : pages p ≠ none →
      mirrorRead crc (indirLookup b') b'.disk (L'.home p) = .ok e.payload) :
    Flushed crc pages b (markClean b' p) L' := by
  refine ⟨hm.inv.markClean he hread, hm.inv.sound_markClean hm.sound p, ?_, ?_⟩
  · intro x e' hx he' hd s hs ph hph
    obtain ⟨e0, he0, -, -, hdirty⟩ := markClean_cache he'
    obtain ⟨hd0, hxp⟩ := hdirty hd
    have hxo : x ≠ o := by
      rintro rfl
      exact hxp (ho hx)
    obtain ⟨hown, hhdr⟩ := hm.other x hx hxo s hs
    rw [hm.cache x hx] at he0
    exact hg x e0 hx he0 hd0 s hown ph (hhdr ▸ hph)
  · intro x hx e' he'
    obtain ⟨e0, he0, -, hpr, hdirty⟩ := markClean_cache he'
    rw [hm.cache x hx] at he0
    exact ⟨e0, he0, hpr, fun hd => (hdirty hd).1⟩

end Page

/-! ## A flush of the cache -/

section Flush

variable {crc : Words → UInt32} {b : Backend} {pages : Nat → Option (Option Words)} {L : Layout}

theorem cachedPayload_eq {p : Nat} {e : CacheEntry} (he : b.cache p = some e) :
    cachedPayload p b = e.payload := by
  simp [cachedPayload, he]

/-- The page whose records `mirror_write` works on when the cache flushes page `p`. A queue page that
was drained meanwhile has no entry any more, and the offset `0` it gives is that of the header. -/
theorem Inv.flush_target (h : Inv crc b pages L) {p : Nat} {e : CacheEntry}
    (he : b.cache p = some e) :
    ∃ o, L.Main o ∧ physicalOffset b p = L.home o ∧ (o = p ∨ o = 0 ∧ pages p = none) ∧
      (L.kind o = .client → pages o ≠ none) := by
  by_cases hlook : indirLookup b p = 0
  · obtain hp | ⟨hk, -⟩ := h.cache.kind p e he
    · exact absurd hlook (h.client p hp).2
    · have h0 := h.queue_ne_zero hk
      have h1 : p ≠ 1 := by
        rintro rfl
        simp [h.table.superblock.1] at hk
      refine ⟨0, by simp [Layout.Main, h.table.header.1], ?_, .inr ⟨rfl, h.pages_of_queue hk⟩,
        by simp [h.table.header.1]⟩
      rw [physicalOffset, if_neg h0, if_neg h1, hlook, h.table.header.2.1]
  · refine ⟨p, ?_, h.offset hlook, .inl rfl, fun hk => ?_⟩
    · obtain hp | ⟨hk, -⟩ := h.cache.kind p e he
      · exact h.main_of_client hp
      · exact L.main_of_queue hk
    · obtain hp | ⟨hk', -⟩ := h.cache.kind p e he
      · exact hp
      · simp [hk] at hk'

theorem Inv.header_not_queue (h : Inv crc b pages L) : L.kind 0 ≠ .queue := by
  simp [h.table.header.1]

theorem Inv.pages_zero (h : Inv crc b pages L) : pages 0 = none := by
  by_contra hp
  have := (h.client 0 hp).1
  simp [h.table.header.1] at this

section

variable {pr : Priority} {p : Nat} {e : CacheEntry} (he : b.cache p = some e) (hd : e.dirty = true)
  (hpr : e.priority = pr)

include he hd hpr

theorem flushPage_totalPages_eq : (flushPage crc pr b p).totalPages =
    (mirrorWrite crc b p (cachedPayload p) pr.flags).2.totalPages := by
  rcases hw : mirrorWrite crc b p (cachedPayload p) pr.flags with ⟨_ | _, b1⟩
  · simp [flushPage, he, hd, hpr, hw]
  · simp [flushPage, he, hd, hpr, hw, cacheModify]

theorem flushPage_written {b1 : Backend}
    (hw : mirrorWrite crc b p (cachedPayload p) pr.flags = (true, b1)) :
    flushPage crc pr b p = markClean b1 p := by
  simp [flushPage, he, hd, hpr, hw, markClean]

end

theorem Inv.flushPage (h : Inv crc b pages L) (hs : QueueSound crc b) (hg : GenOk pages b L)
    (pr : Priority) (p : Nat) (hmax : (flushPage crc pr b p).totalPages ≤ 2 ^ 31) :
    ∃ L', Flushed crc pages b (flushPage crc pr b p) L' ∧
      (pages p ≠ none → ∀ e', (flushPage crc pr b p).cache p = some e' → e'.priority = pr →
        e'.dirty = false) := by
  rcases he : b.cache p with _ | e
  · have heq : Storage.flushPage crc pr b p = b := by simp [Storage.flushPage, he]
    rw [heq]
    exact ⟨L, .refl h hs hg, fun _ e' he' => by simp [he] at he'⟩
  by_cases hskip : ¬ e.dirty ∨ e.priority ≠ pr
  · have heq : Storage.flushPage crc pr b p = b := by
      simp only [Storage.flushPage, he]
      exact if_pos hskip
    rw [heq]
    refine ⟨L, .refl h hs hg, fun _ e' he' hpr => ?_⟩
    rw [he] at he'
    cases he'
    simpa [hpr] using hskip
  obtain ⟨hdirty, hpr⟩ : e.dirty = true ∧ e.priority = pr := by simpa using hskip
  obtain ⟨o, ho, hoff, hop, hclient⟩ := h.flush_target he
  rw [flushPage_totalPages_eq he hdirty hpr] at hmax
  obtain ⟨b1, L1, hw, hm, hread⟩ := h.mirrorWrite hs ho hoff hclient
    (fun hk => by
      obtain rfl | ⟨rfl, -⟩ := hop
      · simp [he]
      · exact absurd hk h.header_not_queue)
    (fun v hp => by
      obtain rfl | ⟨rfl, -⟩ := hop
      · exact ⟨e, he, hdirty⟩
      · simp [h.pages_zero] at hp)
    (fun _ b1 L1 h1 hkept hk => by
      obtain rfl | ⟨rfl, -⟩ := hop
      · obtain ⟨e1, he1⟩ := Option.isSome_iff_exists.1 (hkept.stays o (by simp [he]))
        rw [cachedPayload_eq he1]
        exact h1.cached_queue hk he1
      · exact absurd hk h1.header_not_queue) hmax
  rw [flushPage_written he hdirty hpr hw]
  obtain ⟨e1, he1⟩ := Option.isSome_iff_exists.1 (hm.stays p (by simp [he]))
  refine ⟨L1, hm.flushed hg (fun hp => ?_) he1 fun hp => ?_, fun hp e' he' _ => ?_⟩
  · obtain rfl | ⟨rfl, -⟩ := hop
    · rfl
    · exact absurd h.pages_zero hp
  · obtain rfl | ⟨rfl, hnone⟩ := hop
    · rw [hm.cache o hp, he] at he1
      cases he1
      rw [← cachedPayload_eq he]
      refine hread (fun b2 hkept => ?_) (hg o e hp he hdirty)
      rw [cachedPayload_eq he, cachedPayload_eq (hkept.cache o hp ▸ he)]
    · exact absurd hnone hp
  · rcases hd : e'.dirty with _ | _
    · rfl
    · obtain ⟨_, -, -, -, hne⟩ := markClean_cache he'
      exact absurd rfl (hne hd).2

theorem Inv.flushPages (pr : Priority) (l : List Nat) : ∀ {b : Backend} {L : Layout},
    Inv crc b pages L → QueueSound crc b → GenOk pages b L →
    (l.foldl (Storage.flushPage crc pr) b).totalPages ≤ 2 ^ 31 →
    ∃ L', Flushed crc pages b (l.foldl (Storage.flushPage crc pr) b) L' ∧
      ∀ p ∈ l, pages p ≠ none → ∀ e', (l.foldl (Storage.flushPage crc pr) b).cache p = some e' →
        e'.priority = pr → e'.dirty = false := by
  induction l with
  | nil => exact fun h hs hg _ => ⟨_, .refl h hs hg, by simp⟩
  | cons p l ih =>
    intro b L h hs hg hmax
    rw [List.foldl_cons] at hmax ⊢
    obtain ⟨L1, hf1, hc1⟩ := h.flushPage hs hg pr p
      (Nat.le_trans (flushPages_totalPages crc pr l _) hmax)
    obtain ⟨L2, hf2, hc2⟩ := ih hf1.inv hf1.sound hf1.gen hmax
    refine ⟨L2, hf1.trans hf2, fun x hx hpx e' he' hpr => ?_⟩
    obtain rfl | hx := List.mem_cons.1 hx
    · -- a page that is clean stays clean
      obtain ⟨e, he, hpr', hd⟩ := hf2.entry x hpx e' he'
      have hclean := hc1 hpx e he (hpr' ▸ hpr)
      rcases hde : e'.dirty with _ | _
      · rfl
      · simp [hd hde] at hclean
    · exact hc2 x hx hpx e' he' hpr

theorem Inv.flushRound (h : Inv crc b pages L) (hs : QueueSound crc b) (hg : GenOk pages b L)
    (pr : Priority) (hmax : (flushRound crc b pr).totalPages ≤ 2 ^ 31) :
    ∃ L', Flushed crc pages b (flushRound crc b pr) L' ∧
      Clean pages pr (flushRound crc b pr) := by
  obtain ⟨L', hf, hc⟩ := Inv.flushPages pr (dirtyPages b pr) h hs hg hmax
  refine ⟨L', hf, fun p e' hp he' hpr => ?_⟩
  rcases hd' : e'.dirty with _ | _
  · rfl
  obtain ⟨e, he, hpr', hd⟩ := hf.entry p hp e' he'
  have hmem : p ∈ dirtyPages b pr := by
    rw [dirtyPages, List.mem_insertionSort, List.mem_filter]
    refine ⟨h.cache.listed p e he, ?_⟩
    have hlook := (h.client p hp).2
    have hpre : e.priority = pr := hpr' ▸ hpr
    simp [he, hd hd', hpre, hlook]
  exact hd' ▸ hc p hmem hp e' he' hpr

theorem Inv.cacheFlushAll (h : Inv crc b pages L) (hs : QueueSound crc b) (hg : GenOk pages b L)
    (hmax : (cacheFlushAll crc b).totalPages ≤ 2 ^ 31) :
    ∃ L', Inv crc (cacheFlushAll crc b) pages L' ∧ QueueSound crc (cacheFlushAll crc b) ∧
      ∀ pr, Clean pages pr (cacheFlushAll crc b) := by
  rw [Storage.cacheFlushAll] at hmax ⊢
  simp only [List.foldl_cons, List.foldl_nil] at hmax ⊢
  have hle : ∀ b pr, b.totalPages ≤ (Storage.flushRound crc b pr).totalPages :=
    fun b pr => flushPages_totalPages crc pr _ b
  have hmax3 := Nat.le_trans (hle _ _) hmax
  have hmax2 := Nat.le_trans (hle _ _) hmax3
  have hmax1 := Nat.le_trans (hle _ _) hmax2
  obtain ⟨L1, hf1, hc1⟩ := h.flushRound hs hg .data hmax1
  obtain ⟨L2, hf2, hc2⟩ := hf1.inv.flushRound hf1.sound hf1.gen .pool hmax2
  obtain ⟨L3, hf3, hc3⟩ := hf2.inv.flushRound hf2.sound hf2.gen .indir hmax3
  obtain ⟨L4, hf4, hc4⟩ := hf3.inv.flushRound hf3.sound hf3.gen .superblock hmax
  refine ⟨L4, hf4.inv, hf4.sound, fun pr => ?_⟩
  cases pr with
  | data => exact hf4.clean (hf3.clean (hf2.clean hc1))
  | pool => exact hf4.clean (hf3.clean hc2)
  | indir => exact hf4.clean hc3
  | superblock => exact hc4

theorem Inv.evict (h : Inv crc b pages L) (hc : ∀ pr, Clean pages pr b) :
    Inv crc { b with cached := [], cache := fun _ => none } pages L := by
  apply h.withCache
  · constructor
    · intro _ _ he
      cases he
    · intro _ _ he
      cases he
  · intro p w hp
    refine ⟨fun _ he => absurd he (by simp), fun _ => ?_⟩
    exact (h.content p w hp).2 fun e he => hc e.priority p e (by simp [hp]) he rfl

/-! ## The table and the header -/

theorem Inv.flushOverflow (n : Nat) : ∀ (i : Nat) {b : Backend} {L : Layout},
    Inv crc b pages L → QueueSound crc b → (flushOverflow crc n i b).totalPages ≤ 2 ^ 31 →
    ∃ L', Inv crc (flushOverflow crc n i b) pages L' := by
  induction n with
  | zero => exact fun _ _ _ h _ _ => ⟨_, h⟩
  | succ n ih =>
    intro i b L h hs hmax
    rw [Storage.flushOverflow] at hmax ⊢
    by_cases hi : i < b.overflowCount
    · rw [if_pos hi] at hmax ⊢
      have hk : L.kind (overflowLogical b.pageSize i) = .table := (h.table.table_iff _).2 ⟨i, hi, rfl⟩
      have hp : pages (overflowLogical b.pageSize i) = none := by
        by_contra hp
        simp [(h.client _ hp).1] at hk
      obtain ⟨b1, L1, hw, hm, -⟩ := h.mirrorWrite hs (by simp [Layout.Main, hk])
        (h.offset (h.table.table_live _ hk)) (by simp [hk]) (by simp [hk])
        (fun _ hv => by simp [hp] at hv) (by simp [hk])
        (Nat.le_trans (flushOverflow_totalPages crc n _ _) hmax)
      rw [hw] at hmax ⊢
      exact ih (i + 1) hm.inv hm.sound hmax
    · rw [if_neg hi]
      exact ⟨L, h⟩

theorem Inv.header (h : Inv crc b pages L) :
    Inv crc { b with disk := b.disk.applyAll (headerWrites crc b) } pages L := by
  rw [headerWrites]
  rcases hph : b.disk.hdr 0 with _ | ph
  · exact h
  · have hhome : L.home 0 = 0 := h.table.header.2.1
    refine h.rewriteRecord (o := 0) (by simp [Layout.Main, h.table.header.1]) (.inl hhome.symm)
      (fun _ => .inr ⟨ph, by rw [hhome, hph], rfl⟩) (fun hk => absurd hk h.header_not_queue)
      fun _ hp => by simp [h.pages_zero] at hp

theorem storageFlush_eq (b : Backend) : storageFlush crc b =
    { flushOverflow crc (2 * (cacheFlushAll crc b).overflowCount + 1) 0 (cacheFlushAll crc b) with
      disk := (flushOverflow crc (2 * (cacheFlushAll crc b).overflowCount + 1) 0 (cacheFlushAll crc b)).disk.applyAll
        (headerWrites crc (flushOverflow crc (2 * (cacheFlushAll crc b).overflowCount + 1) 0
          (cacheFlushAll crc b))) } := rfl

theorem cacheFlushAll_totalPages_le (b : Backend) :
    (cacheFlushAll crc b).totalPages ≤ (storageFlush crc b).totalPages := by
  have hle := flushOverflow_totalPages crc (2 * (cacheFlushAll crc b).overflowCount + 1) 0 (cacheFlushAll crc b)
  rw [storageFlush_eq]
  generalize flushOverflow crc _ 0 (cacheFlushAll crc b) = b2 at hle ⊢
  exact hle

end Flush

end Storage
end SphereVFS
