import SphereVFS.StorageRefine
import SphereVFS.Lib.Linked

/-!
# SphereVFS.StorageFresh

Single pages from the storage allocator: what `storage_allocate` and `storage_allocate_tail_advance`
return is not in use, and no two records overlap.

The free list is a chain of pages, each with an entry left, whose last page takes the next freed page.
Its pages are in the cache, or are read into it when they are needed. A drained last page stays the tail
without being on the list, and is put to use again by the next `storage_free` while it is cached.
-/

namespace SphereVFS
namespace Storage

/-! ## The free list in the cache -/

def queueNext (cache : Nat → Option CacheEntry) (p : Nat) : Nat :=
  match cache p with
  | some e => e.payload 0
  | none => 0

def pageEntries (w : Words) : List (Nat × Nat) :=
  (List.range (w 1)).map fun i => (w (2 + 2 * i), w (3 + 2 * i))

def entriesAt (cache : Nat → Option CacheEntry) (p : Nat) : List (Nat × Nat) :=
  match cache p with
  | some e => pageEntries e.payload
  | none => []

def queued (cache : Nat → Option CacheEntry) (chain : List Nat) : List (Nat × Nat) :=
  chain.flatMap (entriesAt cache)

section Entries

variable {w : Words} {i q off : Nat} {cache cache' : Nat → Option CacheEntry} {chain chain' : List Nat}

theorem pageEntries_congr {w' : Words} (hcount : w' 1 = w 1) (hword : ∀ j, 2 ≤ j → w' j = w j) :
    pageEntries w' = pageEntries w := by
  rw [pageEntries, pageEntries, hcount]
  refine List.map_congr_left fun j _ => ?_
  rw [hword _ (by omega), hword _ (by omega)]

theorem pageEntries_next (w : Words) (next : Nat) : pageEntries (Function.update w 0 next) = pageEntries w :=
  pageEntries_congr (Function.update_of_ne (by decide) ..) fun _ hj => Function.update_of_ne (by omega) ..

theorem pageEntries_shorten (hi : w 1 = i + 1) : pageEntries w =
    pageEntries (Function.update w 1 i) ++ [(w (2 + 2 * i), w (3 + 2 * i))] := by
  rw [pageEntries, pageEntries, hi, List.range_succ, List.map_append, Function.update_self]
  congr 1
  refine List.map_congr_left fun j _ => ?_
  rw [Function.update_of_ne (by omega), Function.update_of_ne (by omega)]

theorem pageEntries_append (hi : w 1 = i) : pageEntries (Function.update (Function.update
    (Function.update w (2 + 2 * i) q) (3 + 2 * i) off) 1 (i + 1)) = pageEntries w ++ [(q, off)] := by
  rw [pageEntries_shorten (i := i) (Function.update_self ..)]
  congr 1
  · rw [pageEntries, pageEntries, Function.update_self, hi]
    refine List.map_congr_left fun j hj => ?_
    have hj := List.mem_range.1 hj
    simp (disch := omega) only [Function.update_of_ne]
  · simp (disch := omega) only [Function.update_of_ne, Function.update_self]

theorem pageEntries_new : pageEntries (newQueuePage q off) = [(q, off)] := by
  simp [pageEntries, newQueuePage]

theorem queued_append (cache : Nat → Option CacheEntry) (chain chain' : List Nat) :
    queued cache (chain ++ chain') = queued cache chain ++ queued cache chain' :=
  List.flatMap_append

theorem queued_congr (h : ∀ p ∈ chain, cache' p = cache p) : queued cache' chain = queued cache chain := by
  induction chain with
  | nil => rfl
  | cons p chain ih =>
    have hp : entriesAt cache' p = entriesAt cache p := by
      rw [entriesAt, entriesAt, h p List.mem_cons_self]
    have hrest : queued cache' chain = queued cache chain :=
      ih fun x hx => h x (List.mem_cons_of_mem p hx)
    exact congrArg₂ (· ++ ·) hp hrest

theorem queued_single {p : Nat} {e : CacheEntry} (he : cache p = some e) :
    queued cache [p] = pageEntries e.payload := by
  simp [queued, entriesAt, he]

theorem mem_queued {x : Nat × Nat} (hx : x ∈ queued cache chain) :
    ∃ p ∈ chain, ∃ e, cache p = some e ∧ ∃ i < e.payload 1,
      x = (e.payload (2 + 2 * i), e.payload (3 + 2 * i)) := by
  obtain ⟨p, hp, hx⟩ := List.mem_flatMap.1 hx
  cases he : cache p with
  | none => simp [entriesAt, he] at hx
  | some e =>
    simp only [entriesAt, he] at hx
    obtain ⟨i, hi, rfl⟩ := List.mem_map.1 hx
    exact ⟨p, hp, e, he, i, List.mem_range.1 hi, rfl⟩

end Entries

/-- The free list of a backend: `chain` are its pages. -/
structure Queue (crc : Words → UInt32) (b : Backend) (L : Layout) (chain : List Nat) : Prop where
  linked : Linked.Chain (queueNext (loaded crc b)) 0 b.freeListHead chain
  page : ∀ p ∈ chain, ∃ e, loaded crc b p = some e ∧ 0 < e.payload 1 ∧ e.payload 1 ≤ freeListMaxPerPage b
  kind : ∀ p ∈ chain, L.kind p = .queue
  count : b.freeListCount = (queued (loaded crc b) chain).length
  tail : (∃ l, chain = l ++ [b.freeListTail]) ∨ chain = [] ∧
    (b.freeListTail = 0 ∨ b.cache b.freeListTail = none ∨
      ∃ e, b.cache b.freeListTail = some e ∧ e.payload 0 = 0 ∧ e.payload 1 = 0)
  nodup : ((queued (loaded crc b) chain).map Prod.fst).Nodup
  free : ∀ x ∈ queued (loaded crc b) chain, indirLookup b x.1 = 0
  drained : ∀ p, L.kind p = .queue → p ∉ chain → indirLookup b p = 0

section Queue

variable {crc : Words → UInt32} {b b' : Backend} {pages : Nat → Option (Option Words)} {L L' : Layout}
  {chain : List Nat}

theorem Queue.head_ne_zero (h : Queue crc b L chain) {l : List Nat} {p : Nat} (hl : chain = l ++ [p]) :
    b.freeListHead ≠ 0 := by
  intro h0
  have hnil : chain = [] := h.linked.unique h0
  simp [hl] at hnil

theorem Queue.same (h : Queue crc b L chain)
    (hloaded : ∀ p ∈ chain, loaded crc b' p = loaded crc b p)
    (hcache : b'.cache b.freeListTail = b.cache b.freeListTail)
    (hhead : b'.freeListHead = b.freeListHead) (htail : b'.freeListTail = b.freeListTail)
    (hcount : b'.freeListCount = b.freeListCount) (hsize : b'.pageSize = b.pageSize)
    (hkind : ∀ p ∈ chain, L'.kind p = L.kind p)
    (hlook : ∀ x ∈ queued (loaded crc b) chain, indirLookup b' x.1 = indirLookup b x.1)
    (hdrained : ∀ p, L'.kind p = .queue → L.kind p = .queue ∧ indirLookup b' p = indirLookup b p) :
    Queue crc b' L' chain := by
  have hqueued : queued (loaded crc b') chain = queued (loaded crc b) chain := queued_congr hloaded
  refine ⟨?_, fun p hp => ?_, fun p hp => ?_, ?_, ?_, ?_, fun x hx => ?_, fun p hk hp => ?_⟩
  · rw [hhead]
    refine h.linked.congr fun p hp => ?_
    rw [queueNext, queueNext, hloaded p hp]
  · rw [hloaded p hp, freeListMaxPerPage, hsize]
    exact h.page p hp
  · rw [hkind p hp, h.kind p hp]
  · rw [hcount, hqueued, h.count]
  · rw [htail, hcache]
    exact h.tail
  · rw [hqueued]
    exact h.nodup
  · rw [hqueued] at hx
    rw [hlook x hx, h.free x hx]
  · obtain ⟨hk', heq⟩ := hdrained p hk
    rw [heq, h.drained p hk' hp]

theorem Queue.entry (h : Queue crc b L chain) (hinv : Inv crc b pages L) {x : Nat × Nat}
    (hx : x ∈ queued (loaded crc b) chain) : L.WasClient x.1 ∧ x.2 = L.home x.1 := by
  obtain ⟨p, hp, e, he, i, hi, rfl⟩ := mem_queued hx
  exact (hinv.peek_queue (h.kind p hp) (loaded_payload he)).entry i hi

theorem Queue.extend (h : Queue crc b L chain) (hinv : Inv crc b pages L) (hext : L.Extends L')
    (hsame : SameStore b b') (hlook : ∀ p : Nat, L.kind p ≠ .none → indirLookup b' p = indirLookup b p)
    (hold : ∀ p, L'.kind p = .queue → L.kind p ≠ .none) : Queue crc b' L' chain := by
  refine h.same (fun p hp => ?_) (by rw [hsame.cache]) hsame.head hsame.tail hsame.count hsame.pageSize
    (fun p hp => (hext.used p (by simp [h.kind p hp])).1) (fun x hx => hlook _ (h.entry hinv hx).1.used)
    fun p hp => ⟨(hext.used p (hold p hp)).1 ▸ hp, hlook p (hold p hp)⟩
  have hk := h.kind p hp
  exact hinv.loaded_congr (L.main_of_queue hk) hsame.pageSize (by rw [hsame.cache])
    (hlook p (by simp [hk])) (fun m hm => hlook m (by simp [hm])) fun _ _ => by simp [hsame.disk]

theorem Queue.tailAdvance {q : Nat} (h : Queue crc b L chain) (hinv : Inv crc b pages L)
    (ht : TailAdvance crc pages .client b b' L L' q) : Queue crc b' L' chain :=
  h.extend hinv ht.ext ht.same ht.look fun p hp => by
    have hk := (ht.queue_old (.inr (by simp)) hp).1
    simp [hk]

theorem Queue.grown (h : Queue crc b L chain) (hinv : Inv crc b pages L)
    (hg : Grown crc pages b b' L L') : Queue crc b' L' chain := by
  refine h.extend hinv hg.ext hg.same hg.look fun p hp hnone => ?_
  obtain hk | hk := hg.others p hnone <;> simp [hk] at hp

theorem queueNext_cached {cache : Nat → Option CacheEntry} {p : Nat} {e : CacheEntry}
    (he : cache p = some e) : queueNext cache p = e.payload 0 := by
  rw [queueNext, he]

theorem WasClient.ne_queue {p q : Nat} (hq : L.WasClient q) (hp : L.kind p = .queue) : q ≠ p := by
  rintro rfl
  obtain hk | ⟨r, hk⟩ := hq.2 <;> simp [hp] at hk

theorem Queue.load (hinv : Inv crc b pages L) (h : Queue crc b L chain) {p : Nat} (hp : p ∈ chain) :
    ∃ e cached cache, storageRead crc b p = (.ok e.payload, { b with cached := cached, cache := cache }) ∧
      Inv crc { b with cached := cached, cache := cache } pages L ∧ cache p = some e ∧ 0 < e.payload 1 ∧
      (∀ x, x ≠ p → cache x = b.cache x) ∧ Queue crc { b with cached := cached, cache := cache } L chain ∧
      ∀ x, L.kind x = .queue → loaded crc { b with cached := cached, cache := cache } x = loaded crc b x := by
  have hk := h.kind p hp
  obtain ⟨e, he, hpos⟩ := h.page p hp
  obtain ⟨hnone, -⟩ | ⟨e', cached, cache, he', hread, hinv', hself, hother, -⟩ := hinv.storageRead_queue hk
  · rw [hnone] at he
    cases he
  rw [he] at he'
  cases he'
  have hloaded : ∀ x, L.kind x = .queue →
      loaded crc { b with cached := cached, cache := cache } x = loaded crc b x := by
    intro x hx
    by_cases hxp : x = p
    · subst hxp
      rw [he]
      exact loaded_cached hself
    · exact hinv.loaded_congr (L.main_of_queue hx) rfl (hother x hxp) rfl (fun _ _ => rfl) fun _ _ => ⟨rfl, rfl⟩
  refine ⟨e, cached, cache, hread, hinv', hself, hpos.1, hother, ?_, hloaded⟩
  have hqueued : queued (loaded crc { b with cached := cached, cache := cache }) chain =
      queued (loaded crc b) chain := queued_congr fun x hx => hloaded x (h.kind x hx)
  refine ⟨h.linked.congr fun x hx => ?_, fun x hx => ?_, h.kind, ?_, ?_, ?_, fun x hx => ?_, h.drained⟩
  · rw [queueNext, queueNext, hloaded x (h.kind x hx)]
  · rw [hloaded x (h.kind x hx)]
    exact h.page x hx
  · rw [hqueued]
    exact h.count
  · -- a tail page that is not on the list is not the page that was read
    refine h.tail.imp_right fun ⟨hnil, htail⟩ => ?_
    rw [hnil] at hp
    cases hp
  · rw [hqueued]
    exact h.nodup
  · rw [hqueued] at hx
    exact h.free x hx

/-! ## Taking a page from the list -/

/-- Page `q` was taken from the free list with the pages `chain`, which keeps the pages `chain'`. -/
structure Dequeued (crc : Words → UInt32) (pages : Nat → Option (Option Words)) (b b' : Backend)
    (L : Layout) (q : Nat) (chain chain' : List Nat) : Prop where
  inv : Inv crc b' pages L
  queue : Queue crc b' L chain'
  entries : (queued (loaded crc b) chain).Perm ((q, L.home q) :: queued (loaded crc b') chain')
  sub : chain' ⊆ chain
  live : ∀ p ∈ chain', indirLookup b' p ≠ 0 → indirLookup b p ≠ 0
  look : ∀ x, L.WasClient x → x ≠ q → indirLookup b' x = indirLookup b x
  kept : Kept pages b b'
  totalPages : b'.totalPages = b.totalPages
  pageSize : b'.pageSize = b.pageSize
  physicalTail : b'.physicalTail = b.physicalTail
  kind : L.kind q = .client
  two_le : 2 ≤ q
  free : pages q = none
  entry : indirLookup b' q ≠ 0

theorem Queue.popped {head i q : Nat} {e : CacheEntry} (hinv : Inv crc b pages L)
    (h : Queue crc b L (head :: chain)) (hcached : b.cache head = some e) (hi : e.payload 1 = i + 1)
    (hqe : q = e.payload (2 + 2 * i)) (hqk : L.kind q = .client)
    (hp : Popped crc pages L b b' head i q e) :
    Queue crc b' L (if i = 0 then chain else head :: chain) ∧
      (queued (loaded crc b) (head :: chain)).Perm ((q, e.payload (3 + 2 * i)) ::
        queued (loaded crc b') (if i = 0 then chain else head :: chain)) := by
  have hk := h.kind head List.mem_cons_self
  have he : loaded crc b head = some e := loaded_cached hcached
  have hshorter : loaded crc b' head = _ := loaded_cached hp.shorter
  obtain ⟨hhead, hne, hlinked⟩ := h.linked
  have hnodup := List.nodup_cons.1 h.linked.nodup
  have hcache : ∀ p ∈ chain, loaded crc b' p = loaded crc b p := by
    intro p hpc
    have hpk := h.kind p (List.mem_cons_of_mem _ hpc)
    have hpq : p ≠ q := by
      rintro rfl
      simp [hpk] at hqk
    have hph : p ≠ head := by
      rintro rfl
      exact hnodup.1 hpc
    refine hinv.loaded_congr (L.main_of_queue hpk) hp.pageSize (hp.cache p hpq hph) (hp.look p hpq hph)
      (fun m hm => hp.look m ?_ ?_) fun _ _ => by simp [hp.disk]
    · rintro rfl
      simp [hqk] at hm
    · rintro rfl
      simp [hk] at hm
  have hrest : queued (loaded crc b') chain = queued (loaded crc b) chain := queued_congr hcache
  have hword : Function.update e.payload 1 i 0 = e.payload 0 := Function.update_of_ne (by decide) ..
  -- the entries before and after
  have hbefore : queued (loaded crc b) (head :: chain) = pageEntries (Function.update e.payload 1 i) ++
      (q, e.payload (3 + 2 * i)) :: queued (loaded crc b) chain := by
    rw [← List.singleton_append, queued_append, queued_single he, pageEntries_shorten hi, hqe]
    simp
  have hafter : queued (loaded crc b') (if i = 0 then chain else head :: chain) =
      pageEntries (Function.update e.payload 1 i) ++ queued (loaded crc b) chain := by
    split
    · rename_i h0
      simp [pageEntries, h0, hrest]
    · rw [← List.singleton_append, queued_append, queued_single hshorter, hrest]
  have hsub : queued (loaded crc b') (if i = 0 then chain else head :: chain) ⊆
      queued (loaded crc b) (head :: chain) := by
    rw [hafter, hbefore]
    exact List.append_subset.2 ⟨List.subset_append_left _ _, fun x hx =>
      List.mem_append_right _ (List.mem_cons_of_mem _ hx)⟩
  have hnodup' := h.nodup
  rw [hbefore, List.map_append, List.map_cons, List.nodup_middle, List.nodup_cons, ← List.map_append,
    ← hafter] at hnodup'
  refine ⟨⟨?_, ?_, ?_, ?_, ?_, hnodup'.2, fun x hx => ?_, fun p hpk hpc => ?_⟩, ?_⟩
  · have hlinked' : Linked.Chain (queueNext (loaded crc b')) 0 (e.payload 0) chain := by
      rw [← queueNext_cached he]
      refine hlinked.congr fun p hpc => ?_
      rw [queueNext, queueNext, hcache p hpc]
    split
    · rename_i h0
      rw [hp.last h0]
      exact hlinked'
    · rename_i h0
      refine ⟨(hp.more h0).trans hhead, hne, ?_⟩
      rw [queueNext_cached hshorter]
      exact hword ▸ hlinked'
  · intro p hpc
    have hold : p ∈ chain → ∃ e, loaded crc b' p = some e ∧ 0 < e.payload 1 ∧
        e.payload 1 ≤ freeListMaxPerPage b' := by
      intro hpc
      rw [hcache p hpc, freeListMaxPerPage, hp.pageSize]
      exact h.page p (List.mem_cons_of_mem _ hpc)
    split at hpc
    · exact hold hpc
    · obtain rfl | hpc := List.mem_cons.1 hpc
      · obtain ⟨e', he', -, hle⟩ := h.page p List.mem_cons_self
        rw [he] at he'
        cases he'
        refine ⟨_, hshorter, ?_⟩
        rw [freeListMaxPerPage] at hle
        simp only [Function.update_self, freeListMaxPerPage, hp.pageSize]
        omega
      · exact hold hpc
  · intro p hpc
    split at hpc
    · exact h.kind p (List.mem_cons_of_mem _ hpc)
    · exact h.kind p hpc
  · have hlen := congrArg List.length hbefore
    rw [hp.count, h.count, hlen, hafter]
    simp
  · rw [hp.tail]
    obtain ⟨l, hl⟩ | ⟨hnil, -⟩ := h.tail
    · split
      · rename_i h0
        cases l with
        | nil =>
          -- the last page of the list is drained, and stays the tail
          obtain ⟨rfl, rfl⟩ := List.cons.inj hl
          refine .inr ⟨rfl, .inr (.inr ⟨_, hp.shorter, ?_, ?_⟩)⟩
          · refine hword.trans ?_
            rw [← queueNext_cached he]
            exact hlinked
          · simp [h0]
        | cons _ l =>
          obtain ⟨-, hl'⟩ := List.cons.inj hl
          exact .inl ⟨l, hl'⟩
      · exact .inl ⟨l, hl⟩
    · cases hnil
  · have hxq : x.1 ≠ q := by
      rintro rfl
      exact hnodup'.1 (List.mem_map.2 ⟨x, hx, rfl⟩)
    have hxh : x.1 ≠ head := WasClient.ne_queue (h.entry hinv (hsub hx)).1 hk
    rw [hp.look _ hxq hxh]
    exact h.free x (hsub hx)
  · have hpq : p ≠ q := by
      rintro rfl
      simp [hpk] at hqk
    by_cases hph : p = head
    · subst hph
      by_cases h0 : i = 0
      · exact hp.drained h0
      · simp [h0] at hpc
    · rw [hp.look p hpq hph]
      refine h.drained p hpk fun hmem => hpc ?_
      obtain rfl | hmem := List.mem_cons.1 hmem
      · exact absurd rfl hph
      · split
        · exact hmem
        · exact List.mem_cons_of_mem _ hmem
  · rw [hbefore, hafter]
    exact List.perm_middle

theorem Queue.dequeue_cached {head : Nat} {e : CacheEntry} (hinv : Inv crc b pages L)
    (h : Queue crc b L (head :: chain)) (he : b.cache head = some e) (hpos : 0 < e.payload 1) (n : Nat) :
    ∃ q b' chain', dequeueFromFreeList crc (n + 1) b = (some q, b') ∧
      Dequeued crc pages b b' L q (head :: chain) chain' := by
  obtain ⟨i, hi⟩ := Nat.exists_eq_succ_of_ne_zero (Nat.ne_of_gt hpos)
  have hk := h.kind head List.mem_cons_self
  obtain ⟨hhead, hne, -⟩ := h.linked
  have hmem : (e.payload (2 + 2 * i), e.payload (3 + 2 * i)) ∈ queued (loaded crc b) (head :: chain) := by
    rw [← List.singleton_append, queued_append, queued_single (loaded_cached he), pageEntries_shorten hi]
    simp
  have hlook := h.free _ hmem
  obtain ⟨hq, hoff⟩ := h.entry hinv hmem
  obtain ⟨hqk, hqp⟩ := hinv.free_of_look hq hlook
  obtain ⟨b', hpop, hp⟩ := hinv.popEntry hk he hi hlook
  obtain ⟨hqueue, hperm⟩ := h.popped hinv he hi rfl hqk hp
  rw [show e.payload (3 + 2 * i) = L.home (e.payload (2 + 2 * i)) from hoff] at hperm
  refine ⟨_, b', _, ?_, hp.inv, hqueue, hperm, ?_, ?_,
    fun x hx hxq => hp.look x hxq (WasClient.ne_queue hx hk), ?_, hp.totalPages, hp.pageSize,
    hp.physicalTail, hqk, hq.1, hqp, hp.entry⟩
  rotate_left
  · split
    · exact List.subset_cons_self _ _
    · exact List.Subset.refl _
  · intro p hpc hlive
    have hpq : p ≠ e.payload (2 + 2 * i) := by
      rintro rfl
      simp [hqueue.kind _ hpc] at hqk
    by_cases hph : p = head
    · subst hph
      have h0 : i ≠ 0 := fun h0 => hlive (hp.drained h0)
      rwa [hp.keeps h0] at hlive
    · rwa [hp.look p hpq hph] at hlive
  · refine ⟨hp.pageSize, Nat.le_of_eq hp.totalPages.symm, hp.disk, fun p hpp => hp.cache p ?_ ?_, hp.stays⟩
    · rintro rfl
      exact hpp hqp
    · rintro rfl
      exact hpp (hinv.pages_of_queue hk)
  have hempty : ¬ (b.freeListCount = 0 ∨ head = 0) := by
    rw [h.count, not_or]
    exact ⟨Nat.ne_of_gt (List.length_pos_of_mem hmem), hne⟩
  have hread : storageRead crc b head = (.ok e.payload, b) := storageRead_cached he
  have hcount : readFreeListCount crc b head = (some (i + 1), b) := by
    rw [readFreeListCount, hread]
    exact congrArg (fun n => (some n, b)) hi
  have hentry : readFreeListEntry crc b head i =
      ((e.payload (2 + 2 * i), e.payload (3 + 2 * i)), b) := by
    rw [readFreeListEntry, hread]
  have hzero : e.payload (2 + 2 * i) ≠ 0 := by
    have := hq.1
    omega
  simp only [dequeueFromFreeList, hhead, if_neg hempty, hcount, hentry, if_neg hzero, hread]
  exact hpop

theorem Queue.dequeue {head : Nat} (hinv : Inv crc b pages L) (h : Queue crc b L (head :: chain)) (n : Nat) :
    ∃ q b' chain', dequeueFromFreeList crc (n + 1) b = (some q, b') ∧
      Dequeued crc pages b b' L q (head :: chain) chain' := by
  have hmem : head ∈ head :: chain := List.mem_cons_self
  have hk := h.kind head hmem
  obtain ⟨e, cached, cache, hread, hinv1, he, hpos, hother, h1, hloaded⟩ := h.load hinv hmem
  set b1 : Backend := { b with cached := cached, cache := cache }
  obtain ⟨q, b', chain', heq, hd⟩ := h1.dequeue_cached hinv1 he hpos n
  -- the page is read first, so the call does what it would do with the page cached
  have hsame : dequeueFromFreeList crc (n + 1) b = dequeueFromFreeList crc (n + 1) b1 := by
    have hhead : b.freeListHead = head := h.linked.1
    have hhead1 : b1.freeListHead = head := hhead
    have hcount : readFreeListCount crc b head = (some (e.payload 1), b1) := by rw [readFreeListCount, hread]
    have hcount1 : readFreeListCount crc b1 head = (some (e.payload 1), b1) := by
      rw [readFreeListCount, storageRead_cached he]
    have hcond : (b1.freeListCount = 0 ∨ head = 0) = (b.freeListCount = 0 ∨ head = 0) := rfl
    simp only [dequeueFromFreeList, hhead, hhead1, hcount, hcount1, hcond]
    have hempty : ¬ (b.freeListCount = 0 ∨ head = 0) := by
      intro h0
      have : dequeueFromFreeList crc (n + 1) b1 = (none, b1) := by
        rw [dequeueFromFreeList, hhead1, if_pos h0]
      rw [this] at heq
      cases heq
    rw [if_neg hempty, if_neg hempty]
  have hkept : Kept pages b b1 := by
    refine ⟨rfl, Nat.le_refl _, rfl, fun p hp => hother p ?_, fun x hx => ?_⟩
    · rintro rfl
      exact hp (hinv.pages_of_queue hk)
    · by_cases hxh : x = head
      · simp [hxh, b1, he]
      · rwa [← hother x hxh] at hx
  refine ⟨q, b', chain', hsame.trans heq, hd.inv, hd.queue, ?_, hd.sub, hd.live, hd.look,
    hkept.trans hd.kept, hd.totalPages,
    hd.pageSize, hd.physicalTail, hd.kind, hd.two_le, hd.free, hd.entry⟩
  rw [← queued_congr fun p hp => hloaded p (h.kind p hp)]
  exact hd.entries

/-! ## Putting a page on the list -/

theorem Queue.add {chain' : List Nat} {q off : Nat} (h : Queue crc b L chain)
    (hlinked : Linked.Chain (queueNext (loaded crc b')) 0 b'.freeListHead chain')
    (hpage : ∀ p ∈ chain', ∃ e, loaded crc b' p = some e ∧ 0 < e.payload 1 ∧
      e.payload 1 ≤ freeListMaxPerPage b')
    (hkind : ∀ p ∈ chain', L'.kind p = .queue)
    (hqueued : queued (loaded crc b') chain' = queued (loaded crc b) chain ++ [(q, off)])
    (hcount : b'.freeListCount = b.freeListCount + 1) (htail : ∃ l, chain' = l ++ [b'.freeListTail])
    (hnew : ∀ x ∈ queued (loaded crc b) chain, x.1 ≠ q)
    (hlook : ∀ x ∈ queued (loaded crc b) chain, indirLookup b' x.1 = indirLookup b x.1)
    (hq : indirLookup b' q = 0)
    (hdrained : ∀ p, L'.kind p = .queue → p ∉ chain' → indirLookup b' p = 0) : Queue crc b' L' chain' := by
  refine ⟨hlinked, hpage, hkind, ?_, .inl htail, ?_, fun x hx => ?_, hdrained⟩
  · rw [hcount, hqueued, h.count, List.length_append, List.length_singleton]
  · rw [hqueued, List.map_append, List.nodup_append]
    refine ⟨h.nodup, List.nodup_singleton _, fun x hx y hy => ?_⟩
    obtain ⟨z, hz, rfl⟩ := List.mem_map.1 hx
    rw [List.mem_singleton.1 hy]
    exact hnew z hz
  · rw [hqueued] at hx
    obtain hx | hx := List.mem_append.1 hx
    · rw [hlook x hx, h.free x hx]
    · rw [List.mem_singleton.1 hx]
      exact hq

/-- Page `q` was put on the free list with the pages `chain`, which then has the pages `chain'`. -/
structure Enqueued (crc : Words → UInt32) (pages : Nat → Option (Option Words)) (b b' : Backend)
    (L L' : Layout) (q : Nat) (chain chain' : List Nat) : Prop where
  inv : Inv crc b' pages L'
  queue : Queue crc b' L' chain'
  entries : queued (loaded crc b') chain' = queued (loaded crc b) chain ++ [(q, L.home q)]
  look : ∀ x, L.kind x ≠ .none → indirLookup b' x = indirLookup b x
  ext : L.Extends L'
  disk : b'.disk = b.disk
  pageSize : b'.pageSize = b.pageSize
  records : NewRecords b b' L L'
  cached : ∀ x, L'.kind x = .queue → (b'.cache x).isSome ∨ L.kind x = .queue ∧ b'.cache x = b.cache x
  added : ∀ p ∈ chain', indirLookup b' p ≠ 0 → p ∈ chain ∨ L.kind p = .none
  old : ∀ x, L.kind x = .none → L'.kind x = .none ∨ L'.kind x = .queue ∨ L'.kind x = .table

theorem Enqueued.old_client {q x : Nat} {chain' : List Nat} (h : Enqueued crc pages b b' L L' q chain chain')
    (hx : L'.WasClient x) : L.kind x ≠ .none := by
  intro hnone
  obtain hk' | hk' | hk' := h.old x hnone <;> obtain hk | ⟨r, hk⟩ := hx.2 <;> simp [hk'] at hk

theorem NewRecords.refl (b : Backend) (L : Layout) (b' : Backend)
    (h : b'.physicalTail = b.physicalTail) : NewRecords b b' L L :=
  ⟨⟨0, by simp [h]⟩, fun _ hp hp' => absurd hp hp'⟩

section Enqueue

variable {q : Nat} (hinv : Inv crc b pages L) (h : Queue crc b L chain) (hq : L.WasClient q)
  (hlook : indirLookup b q = 0) (hnew : ∀ x ∈ queued (loaded crc b) chain, x.1 ≠ q)
include hinv h hq hlook hnew

theorem Queue.enqueue_append {e : CacheEntry} (htail : b.freeListTail ≠ 0)
    (he : b.cache b.freeListTail = some e) (hroom : e.payload 1 < freeListMaxPerPage b) :
    ∃ chain', Enqueued crc pages b (enqueueFreePage crc b q (L.home q)) L L q chain chain' := by
  have hk := hinv.tail.resolve_left htail
  set w := Function.update (Function.update (Function.update e.payload (2 + 2 * e.payload 1) q)
    (3 + 2 * e.payload 1) (L.home q)) 1 (e.payload 1 + 1)
  have heq : enqueueFreePage crc b q (L.home q) = setQueueTail
      { b with cache := Function.update b.cache b.freeListTail (some ⟨w, .pool, true⟩) }
        b.freeListTail := by
    have hcount : readFreeListCount crc b b.freeListTail = (some (e.payload 1), b) := by
      rw [readFreeListCount, storageRead_cached he]
    simp only [Storage.enqueueFreePage, if_neg htail, hcount, if_pos hroom]
    rw [writeFreeListEntry, writeFreeListCount, writeFreeList_cached he,
      writeFreeList_cached (Function.update_self ..)]
    simp only [Function.update_idem]
    rfl
  have hinv' : Inv crc { b with
      cache := Function.update b.cache b.freeListTail (some ⟨w, .pool, true⟩) } pages L :=
    hinv.queueInsert hk ((hinv.cached_queue hk he).append rfl hq)
      fun x hx => hx.elim (fun hx => hx ▸ hinv.cache.listed _ e he) id
  have hentries : pageEntries w = pageEntries e.payload ++ [(q, L.home q)] := pageEntries_append rfl
  have hnext : w 0 = e.payload 0 := by
    simp (disch := omega) only [w, Function.update_of_ne]
  have hpos : 0 < w 1 ∧ w 1 ≤ freeListMaxPerPage b := by
    simp only [w, Function.update_self]
    omega
  rw [heq]
  set b' := setQueueTail { b with
    cache := Function.update b.cache b.freeListTail (some ⟨w, .pool, true⟩) } b.freeListTail
  have hself : loaded crc b' b.freeListTail = some ⟨w, .pool, true⟩ := loaded_cached (Function.update_self ..)
  have hother : ∀ p, L.kind p = .queue → p ≠ b.freeListTail → loaded crc b' p = loaded crc b p :=
    fun p hpk hp => hinv.loaded_congr (L.main_of_queue hpk) rfl (Function.update_of_ne hp ..) rfl
      (fun _ _ => rfl) fun _ _ => ⟨rfl, rfl⟩
  have hold : loaded crc b b.freeListTail = some e := loaded_cached he
  have hcached : ∀ x, L.kind x = .queue → (b'.cache x).isSome ∨ L.kind x = .queue ∧ b'.cache x = b.cache x := by
    intro x hx
    by_cases hxt : x = b.freeListTail
    · left
      simp [b', setQueueTail, hxt]
    · exact .inr ⟨hx, Function.update_of_ne hxt ..⟩
  obtain ⟨l, hl⟩ | ⟨rfl, hdrained⟩ := h.tail
  · -- the list ends with the tail page
    have hne : ∀ p ∈ l, p ≠ b.freeListTail := by
      rintro p hp rfl
      have := h.linked.nodup
      rw [hl, List.nodup_append] at this
      exact this.2.2 _ hp _ (List.mem_singleton_self _) rfl
    have hhead := h.head_ne_zero hl
    have hqueued : queued (loaded crc b') chain = queued (loaded crc b) chain ++ [(q, L.home q)] := by
      have hfirst : queued (loaded crc b') l = queued (loaded crc b) l :=
        queued_congr fun p hp => hother p (h.kind p (by simp [hl, hp])) (hne p hp)
      rw [hl, queued_append, queued_append, queued_single hself, queued_single hold, hentries, hfirst,
        List.append_assoc]
    refine ⟨chain, hinv'.setQueueTail hk, h.add ?_ (fun p hp => ?_) h.kind hqueued rfl ⟨l, hl⟩ hnew
      (fun _ _ => rfl) hlook h.drained, hqueued, fun _ _ => rfl, .refl L, rfl, rfl, .refl b L _ rfl, hcached,
      fun p hp _ => .inl hp, fun _ hx => .inl hx⟩
    · have hhead' : b'.freeListHead = b.freeListHead := if_neg hhead
      rw [hhead']
      refine h.linked.congr fun p hp => ?_
      by_cases hpt : p = b.freeListTail
      · rw [hpt, queueNext_cached hself, queueNext_cached hold]
        exact hnext
      · rw [queueNext, queueNext, hother p (h.kind p hp) hpt]
    · by_cases hpt : p = b.freeListTail
      · subst hpt
        exact ⟨_, hself, hpos⟩
      · obtain ⟨e', he', hpos'⟩ := h.page p hp
        exact ⟨e', (hother p (h.kind p hp) hpt).trans he', hpos'⟩
  · -- the tail page was drained, and starts the list again
    obtain ⟨e', he', hzero, hcount⟩ := (hdrained.resolve_left htail).resolve_left (by simp [he])
    obtain rfl : e = e' := by simpa [he] using he'
    have hhead : b.freeListHead = 0 := h.linked
    have hqueued : queued (loaded crc b') [b.freeListTail] = queued (loaded crc b) [] ++ [(q, L.home q)] := by
      rw [queued_single hself, hentries]
      simp [pageEntries, hcount, queued]
    refine ⟨[b.freeListTail], hinv'.setQueueTail hk, h.add ?_ (fun p hp => ?_) (fun p hp => ?_) hqueued
      rfl ⟨[], rfl⟩ hnew (fun _ _ => rfl) hlook fun p hpk _ => h.drained p hpk (by simp),
      hqueued, fun _ _ => rfl, .refl L, rfl, rfl, .refl b L _ rfl, hcached, fun p hp hlive => ?_,
      fun _ hx => .inl hx⟩
    · have hhead' : b'.freeListHead = b.freeListTail := if_pos hhead
      refine ⟨hhead', htail, ?_⟩
      rw [queueNext_cached hself]
      exact hnext.trans hzero
    · rw [List.mem_singleton.1 hp]
      exact ⟨_, hself, hpos⟩
    · rw [List.mem_singleton.1 hp]
      exact hk
    · rw [List.mem_singleton.1 hp] at hlive
      exact absurd (h.drained _ hk (by simp)) hlive

theorem Queue.enqueue_newTail (htail : b.freeListTail = 0 ∨ b.cache b.freeListTail = none ∨
    ∃ e, b.cache b.freeListTail = some e ∧ 0 < e.payload 1)
    (hcached : b.freeListTail ∈ chain → (b.cache b.freeListTail).isSome) :
    ∃ L' chain', Enqueued crc pages b
      (enqueueFreePage.newTail crc q (L.home q) b b.freeListTail) L L' q chain chain' := by
  obtain ⟨page, b1, L1, heq, ht⟩ := hinv.tailAdvance (k := .queue) (.inr rfl)
  have hnone : b1.cache page = none := by
    rw [ht.same.cache]
    refine hinv.uncached ?_ (by simp [ht.unused])
    by_contra hp
    have := (hinv.client page hp).1
    simp [ht.unused] at this
  have hnot : ∀ p, L.kind p ≠ .none → p ≠ page := by
    rintro p hp rfl
    exact hp ht.unused
  have hpage0 : page ≠ 0 := by
    have := hinv.table.two_le
    have := ht.ge
    omega
  have hhome : L1.home q = L.home q := (ht.ext.used q hq.used).2
  have hold : ∀ x ∈ queued (loaded crc b) chain, indirLookup b1 x.1 = indirLookup b x.1 :=
    fun x hx => ht.look _ (h.entry hinv hx).1.used
  -- a backend with the table of b1 reads the pages of the list as before, but for those that were touched
  have hsame : ∀ (b' : Backend) (p : Nat), L.kind p = .queue → b'.cache p = b.cache p →
      (∀ x : Nat, indirLookup b' x = indirLookup b1 x) → b'.disk = b1.disk → b'.pageSize = b1.pageSize →
      loaded crc b' p = loaded crc b p := by
    intro b' p hpk hcache hlook' hdisk hsize
    refine hinv.loaded_congr (L.main_of_queue hpk) (hsize.trans ht.same.pageSize) hcache ?_ (fun m hm => ?_)
      fun _ _ => by simp [hdisk, ht.same.disk]
    · rw [hlook', ht.look p (by simp [hpk])]
    · rw [hlook', ht.look m (by simp [hm])]
  have hqlook : indirLookup b1 q = 0 := (ht.look q hq.used).trans hlook
  have hclients : ∀ x, L.kind x = .none → L1.kind x = .none ∨ L1.kind x = .queue ∨ L1.kind x = .table := by
    intro x hnone
    by_cases hxp : x = page
    · exact .inr (.inl (hxp ▸ ht.kind))
    · exact (ht.others x hnone hxp).imp_right .inr
  set new : CacheEntry := ⟨newQueuePage q (L.home q), .pool, true⟩
  have hnewpage : QueuePage L1 page (newQueuePage q (L1.home q)) :=
    newQueuePage_ok (ht.ext.wasClient hq)
  rw [hhome] at hnewpage
  set b2 : Backend := { b1 with
      cached := page :: b1.cached
      cache := Function.update b1.cache page (some new) }
  have hinv2 : Inv crc b2 pages L1 :=
    ht.inv.queueInsert ht.kind hnewpage fun x hx => List.mem_cons.2 hx
  have hself : Function.update b1.cache page (some new) page = some new := Function.update_self ..
  have hother : ∀ p, p ≠ page → Function.update b1.cache page (some new) p = b.cache p := by
    intro p hp
    rw [Function.update_of_ne hp, ht.same.cache]
  have hnext : new.payload 0 = 0 := by simp [new, newQueuePage]
  have hpos : 0 < new.payload 1 ∧ new.payload 1 ≤ freeListMaxPerPage b1 := by
    have := hinv.table.size
    have hone : new.payload 1 = 1 := by simp [new, newQueuePage]
    rw [hone, freeListMaxPerPage, ht.same.pageSize]
    omega
  simp only [enqueueFreePage.newTail, allocFreeListPage_eq heq hnone]
  obtain ⟨l, hl⟩ | ⟨rfl, hdrained⟩ := h.tail
  · -- the old tail page gets a successor
    have hmem : b.freeListTail ∈ chain := by
      rw [hl]
      exact List.mem_append_right _ (List.mem_singleton_self _)
    have htail0 : b.freeListTail ≠ 0 := h.linked.ne_null hmem
    have hk := h.kind _ hmem
    have hk1 : L1.kind b.freeListTail = .queue := by rw [(ht.ext.used _ (by simp [hk])).1, hk]
    obtain ⟨e, he⟩ := Option.isSome_iff_exists.1 (hcached hmem)
    have heold : loaded crc b b.freeListTail = some e := loaded_cached he
    have hepos : 0 < e.payload 1 ∧ e.payload 1 ≤ freeListMaxPerPage b1 := by
      obtain ⟨e', he', hpos'⟩ := h.page _ hmem
      rw [freeListMaxPerPage, ht.same.pageSize]
      rw [heold] at he'
      cases he'
      exact hpos'
    have htp : b.freeListTail ≠ page := hnot _ (by simp [hk])
    have hcached : Function.update b1.cache page (some new) b.freeListTail = some e :=
      (hother _ htp).trans he
    have hinv3 := hinv2.writeFreeListNext hk1
      ⟨Nat.lt_of_lt_of_le (hinv.queue_lt hk) ht.ge, ht.kind⟩
    rw [if_neg htail0]
    rw [writeFreeListNext, writeFreeList_cached hcached] at hinv3 ⊢
    set linked : CacheEntry := ⟨Function.update e.payload 0 page, .pool, true⟩
    set b' := Storage.setQueueTail { b1 with
      cached := page :: b1.cached
      cache := Function.update (Function.update b1.cache page (some new)) b.freeListTail (some linked) } page
    have hlself : loaded crc b' b.freeListTail = some linked := loaded_cached (Function.update_self ..)
    have hpself : loaded crc b' page = some new :=
      loaded_cached ((Function.update_of_ne htp.symm ..).trans hself)
    have hl' : ∀ p ∈ l, loaded crc b' p = loaded crc b p := by
      intro p hp
      have hpt : p ≠ b.freeListTail := by
        rintro rfl
        have := h.linked.nodup
        rw [hl, List.nodup_append] at this
        exact this.2.2 _ hp _ (List.mem_singleton_self _) rfl
      have hpk := h.kind p (by rw [hl]; exact List.mem_append_left _ hp)
      exact hsame b' p hpk ((Function.update_of_ne hpt ..).trans (hother p (hnot p (by simp [hpk]))))
        (fun _ => rfl) rfl rfl
    have hhead := h.head_ne_zero hl
    have hhead' : b'.freeListHead = b.freeListHead := by
      rw [← ht.same.head] at hhead ⊢
      exact if_neg hhead
    have hqueued : queued (loaded crc b') (l ++ [b.freeListTail, page]) =
        queued (loaded crc b) chain ++ [(q, L.home q)] := by
      have hsplit : l ++ [b.freeListTail, page] = l ++ [b.freeListTail] ++ [page] := by simp
      rw [hsplit, hl, queued_append, queued_append, queued_append, queued_single hlself,
        queued_single hpself, queued_single heold, queued_congr hl', pageEntries_next, pageEntries_new]
    refine ⟨L1, l ++ [b.freeListTail, page], hinv3.setQueueTail ht.kind,
      h.add ?_ (fun p hp => ?_) (fun p hp => ?_) hqueued ?_ ⟨l ++ [b.freeListTail], by simp [b', setQueueTail]⟩
        hnew hold hqlook (fun p hpk hpc => ?_), hqueued, ht.look, ht.ext, ht.same.disk, ht.same.pageSize,
      ⟨ht.records.tail, ht.records.home⟩, fun x hx => ?_, fun p hp _ => ?_, hclients⟩
    · rw [hhead']
      refine Linked.Chain.append_last (hl ▸ h.linked) hpage0 ?_ ?_ fun p hp => ?_
      · rw [queueNext_cached hlself]
        simp [linked]
      · rw [queueNext_cached hpself, hnext]
      · rw [queueNext, queueNext, hl' p hp]
    · obtain hp | hp := List.mem_append.1 hp
      · obtain ⟨e', he', hpos'⟩ := h.page p (by rw [hl]; exact List.mem_append_left _ hp)
        rw [freeListMaxPerPage, ← ht.same.pageSize] at hpos'
        exact ⟨e', (hl' p hp).trans he', hpos'⟩
      · obtain rfl | hp := List.mem_cons.1 hp
        · refine ⟨_, hlself, ?_⟩
          have hcount : Function.update e.payload 0 page 1 = e.payload 1 :=
            Function.update_of_ne Nat.one_ne_zero ..
          exact hcount ▸ hepos
        · rw [List.mem_singleton.1 hp]
          exact ⟨_, hpself, hpos⟩
    · obtain hp | hp := List.mem_append.1 hp
      · have hpk := h.kind p (by rw [hl]; exact List.mem_append_left _ hp)
        rw [(ht.ext.used p (by simp [hpk])).1, hpk]
      · obtain rfl | hp := List.mem_cons.1 hp
        · exact hk1
        · rw [List.mem_singleton.1 hp]
          exact ht.kind
    · simp only [b', setQueueTail, ht.same.count]
    · have hpp : p ≠ page := by
        rintro rfl
        exact hpc (by simp)
      obtain ⟨hpk', hold'⟩ := ht.queue_old (.inl hpp) hpk
      refine hold'.trans (h.drained p hpk' fun hmem => hpc ?_)
      rw [hl] at hmem
      simp only [List.mem_append, List.mem_singleton] at hmem ⊢
      exact hmem.imp_right fun hp => by simp [hp]
    · by_cases hxt : x = b.freeListTail
      · left
        simp [b', Storage.setQueueTail, hxt]
      · by_cases hxp : x = page
        · left
          simp [b', Storage.setQueueTail, hxp, htp.symm]
        · exact .inr ⟨(ht.queue_old (.inl hxp) hx).1,
            (Function.update_of_ne hxt ..).trans (hother x hxp)⟩
    · simp only [List.mem_append, List.mem_cons, List.not_mem_nil, or_false] at hp
      obtain hp | rfl | rfl := hp
      · exact .inl (by rw [hl]; exact List.mem_append_left _ hp)
      · exact .inl hmem
      · exact .inr ht.unused
  · -- the first page of the list: there is no tail page, or none that can be read
    have hskip : (if b.freeListTail = 0 then b2 else writeFreeListNext crc b2 b.freeListTail page) = b2 := by
      by_cases h0 : b.freeListTail = 0
      · rw [if_pos h0]
      · have hk := hinv.tail.resolve_left h0
        have hused : L.kind b.freeListTail ≠ .none := by simp [hk]
        have hgone : b.cache b.freeListTail = none := by
          obtain hn | ⟨e, he, -, hzero⟩ := hdrained.resolve_left h0
          · exact hn
          · obtain hn | ⟨e', he', hpos'⟩ := htail.resolve_left h0
            · exact hn
            · rw [he] at he'
              cases he'
              omega
        have hcache : b2.cache b.freeListTail = none := (hother _ (hnot _ hused)).trans hgone
        have hlookt : indirLookup b1 b.freeListTail = 0 :=
          (ht.look _ hused).trans (h.drained _ hk (by simp))
        have hread : storageRead crc b2 b.freeListTail = (.notFound, b2) := by
          simp only [storageRead, hcache]
          exact if_pos hlookt
        rw [if_neg h0, writeFreeListNext, writeFreeList, hread]
    have hhead : b1.freeListHead = 0 := ht.same.head.trans h.linked
    rw [hskip]
    set b' := Storage.setQueueTail b2 page
    have hpself : loaded crc b' page = some new := loaded_cached hself
    have hqueued : queued (loaded crc b') [page] = queued (loaded crc b) [] ++ [(q, L.home q)] := by
      rw [queued_single hpself, pageEntries_new]
      rfl
    refine ⟨L1, [page], hinv2.setQueueTail ht.kind, h.add ?_ (fun p hp => ?_) (fun p hp => ?_) hqueued ?_
      ⟨[], rfl⟩ hnew hold hqlook (fun p hpk hpc => ?_), hqueued, ht.look, ht.ext, ht.same.disk, ht.same.pageSize,
      ⟨ht.records.tail, ht.records.home⟩, fun x hx => ?_, fun p hp _ => ?_, hclients⟩
    · have hhead' : b'.freeListHead = page := if_pos hhead
      refine ⟨hhead', hpage0, ?_⟩
      rw [queueNext_cached hpself, hnext]
      rfl
    · rw [List.mem_singleton.1 hp]
      exact ⟨_, hpself, hpos⟩
    · rw [List.mem_singleton.1 hp]
      exact ht.kind
    · simp only [b', b2, setQueueTail, ht.same.count]
    · obtain ⟨hpk', hold'⟩ := ht.queue_old (.inl (by simpa using hpc)) hpk
      exact hold'.trans (h.drained p hpk' (by simp))
    · by_cases hxp : x = page
      · left
        simp [b', b2, Storage.setQueueTail, hxp]
      · exact .inr ⟨(ht.queue_old (.inl hxp) hx).1, hother x hxp⟩
    · rw [List.mem_singleton.1 hp]
      exact .inr ht.unused

theorem Queue.enqueue_cached (hcached : b.freeListTail ∈ chain → (b.cache b.freeListTail).isSome) :
    ∃ L' chain', Enqueued crc pages b (enqueueFreePage crc b q (L.home q)) L L' q chain chain' := by
  by_cases htail : b.freeListTail = 0
  · simp only [enqueueFreePage, if_pos htail]
    exact h.enqueue_newTail hinv hq hlook hnew (.inl htail) hcached
  rcases he : b.cache b.freeListTail with _ | e
  · -- a drained tail page that is not cached cannot be read
    have hnot : b.freeListTail ∉ chain := fun hmem => by simpa [he] using hcached hmem
    have hlookt := h.drained _ (hinv.tail.resolve_left htail) hnot
    have hcount : readFreeListCount crc b b.freeListTail = (none, b) := by
      simp [readFreeListCount, storageRead, he, hlookt]
    simp only [enqueueFreePage, if_neg htail, hcount]
    exact h.enqueue_newTail hinv hq hlook hnew (.inr (.inl he)) hcached
  · -- the tail page is on the list or drained
    have hroom : e.payload 1 < freeListMaxPerPage b ∨ 0 < e.payload 1 := by
      have := hinv.table.size
      rw [freeListMaxPerPage]
      omega
    by_cases hlt : e.payload 1 < freeListMaxPerPage b
    · exact ⟨L, h.enqueue_append hinv hq hlook hnew htail he hlt⟩
    · have hcount : readFreeListCount crc b b.freeListTail = (some (e.payload 1), b) := by
        rw [readFreeListCount, storageRead_cached he]
      simp only [enqueueFreePage, if_neg htail, hcount, if_neg hlt]
      exact h.enqueue_newTail hinv hq hlook hnew (.inr (.inr ⟨e, he, hroom.resolve_left hlt⟩)) hcached

theorem Queue.enqueue :
    ∃ L' chain', Enqueued crc pages b (enqueueFreePage crc b q (L.home q)) L L' q chain chain' := by
  by_cases hmem : b.freeListTail ∈ chain
  · -- the tail page is read first, so the call does what it would do with the page cached
    obtain ⟨e, cached, cache, hread, hinv1, he, -, hother, h1, hloaded⟩ := h.load hinv hmem
    have hqueued := queued_congr fun p hp => hloaded p (h.kind p hp)
    have hne : b.freeListTail ≠ 0 := h.linked.ne_null hmem
    have hsame : enqueueFreePage crc b q (L.home q) =
        enqueueFreePage crc { b with cached := cached, cache := cache } q (L.home q) := by
      have hcount : readFreeListCount crc b b.freeListTail =
          (some (e.payload 1), { b with cached := cached, cache := cache }) := by
        rw [readFreeListCount, hread]
      have hcount1 : readFreeListCount crc { b with cached := cached, cache := cache } b.freeListTail =
          (some (e.payload 1), { b with cached := cached, cache := cache }) := by
        rw [readFreeListCount, storageRead_cached he]
      simp only [enqueueFreePage, if_neg hne, hcount, hcount1]
      rfl
    obtain ⟨L', chain', he'⟩ := h1.enqueue_cached hinv1 hq hlook (by rw [hqueued]; exact hnew)
      fun _ => by simp [he]
    rw [hsame]
    refine ⟨L', chain', he'.inv, he'.queue, hqueued ▸ he'.entries, he'.look, he'.ext, he'.disk, he'.pageSize,
      ⟨he'.records.tail, he'.records.home⟩, fun x hx => ?_, he'.added, he'.old⟩
    obtain hsome | ⟨hxk, hx'⟩ := he'.cached x hx
    · exact .inl hsome
    · by_cases hxt : x = b.freeListTail
      · left
        rw [hx', hxt]
        simp [he]
      · exact .inr ⟨hxk, hx'.trans (hother x hxt)⟩
  · exact h.enqueue_cached hinv hq hlook hnew fun hm => absurd hm hmem

end Enqueue

end Queue

/-! ## Runs of the allocator -/

inductive AllocCall where
  | allocate
  | tailAdvance
  | free (page : Nat)

def allocStep (crc : Words → UInt32) (s : Session) : AllocCall → Session
  | .allocate => step crc s .allocate
  | .tailAdvance =>
    match storageAllocateTailAdvance s.backend with
    | (some page, b) => ⟨b, Function.update s.pages page (some none)⟩
    | (none, b) => ⟨b, s.pages⟩
  | .free page => step crc s (.free page)

def AllocCall.Ok (s : Session) : AllocCall → Bool
  | .allocate => true
  | .tailAdvance => true
  | .free page => decide (2 ≤ page) && (s.pages page).isSome

def allocRun (crc : Words → UInt32) (s : Session) (calls : List AllocCall) : Session :=
  calls.foldl (allocStep crc) s

def RecordStart (b : Backend) (s : Nat) : Prop := physRecordSize b ∣ s ∧ 2 * physRecordSize b ≤ s

structure Healthy (crc : Words → UInt32) (s : Session) (L : Layout) (chain : List Nat) : Prop where
  inv : Inv crc s.backend s.pages L
  queue : Queue crc s.backend L chain
  cached : ∀ p, L.kind p = .queue → (s.backend.cache p).isSome
  home : ∀ p, 2 ≤ p → L.kind p ≠ .none → RecordStart s.backend (L.home p)
  tail : RecordStart s.backend s.backend.physicalTail

/-- Page `q` is in no use at all. -/
structure Fresh (s : Session) (chain : List Nat) (q : Nat) : Prop where
  two_le : 2 ≤ q
  not_allocated : s.pages q = none
  not_queue : q ∉ chain ∧ q ≠ s.backend.freeListTail
  not_table : ∀ i, q ≠ overflowLogical s.backend.pageSize i

/-- Page `q` is given out. -/
structure Given (crc : Words → UInt32) (s : Session) (b' : Backend) (L L' : Layout) (chain chain' : List Nat)
    (q : Nat) : Prop where
  fresh : Fresh s chain q
  healthy : Healthy crc ⟨b', Function.update s.pages q (some none)⟩ L' chain'
  ext : L.Extends L'
  old : ∀ p, L.kind p = .none → p ≠ q → L'.kind p = .none ∨ L'.kind p = .table
  look : ∀ p, L.WasClient p → p ≠ q → indirLookup b' p = indirLookup s.backend p
  waiting : ∀ x ∈ queued s.backend.cache chain, x.1 ≠ q → x ∈ queued b'.cache chain'

section Runs

variable {crc : Words → UInt32} {s : Session} {b' : Backend} {L L' : Layout} {chain : List Nat}

theorem RecordStart.congr {b : Backend} {a : Nat} (h : RecordStart b a) (hsize : b'.pageSize = b.pageSize) :
    RecordStart b' a := by
  rwa [RecordStart, physRecordSize, hsize]

theorem Healthy.records (h : Healthy crc s L chain) (hext : L.Extends L')
    (hrec : NewRecords s.backend b' L L') (hsize : b'.pageSize = s.backend.pageSize) :
    (∀ p, 2 ≤ p → L'.kind p ≠ .none → RecordStart b' (L'.home p)) ∧ RecordStart b' b'.physicalTail := by
  have hnew : ∀ a, (∃ n, a = s.backend.physicalTail + n * physRecordSize s.backend) →
      RecordStart b' a := by
    rintro a ⟨n, rfl⟩
    refine RecordStart.congr ?_ hsize
    exact ⟨Nat.dvd_add h.tail.1 (Nat.dvd_mul_left _ _), Nat.le_trans h.tail.2 (Nat.le_add_right _ _)⟩
  refine ⟨fun p hp hk => ?_, hnew _ hrec.tail⟩
  by_cases hold : L.kind p = .none
  · exact hnew _ (hrec.home p hold hk)
  · rw [(hext.used p hold).2]
    exact (h.home p hp hold).congr hsize

theorem Inv.not_table {b : Backend} {pages : Nat → Option (Option Words)} (h : Inv crc b pages L) {q : Nat}
    (hk : L.kind q = .client) (i : Nat) : q ≠ overflowLogical b.pageSize i := by
  rintro rfl
  have hlt : overflowLogical b.pageSize i < b.totalPages := by
    by_contra hge
    simp [h.table.ahead _ (Nat.not_lt.1 hge) (by simp [hk])] at hk
  by_cases hi : i < b.overflowCount
  · have := (h.table.table_iff _).2 ⟨i, hi, rfl⟩
    simp [hk] at this
  · have hlast := overflowLogical_last h.table.size b.overflowCount
    have hroom := h.table.room
    obtain rfl | hgt := Nat.eq_or_lt_of_le (Nat.not_lt.1 hi)
    · omega
    · have hle : overflowLogical b.pageSize b.overflowCount + _ ≤ overflowLogical b.pageSize i :=
        overflowLogical_lt hgt
      omega

theorem Healthy.not_queue (h : Healthy crc s L chain) {q : Nat} (htwo : 2 ≤ q)
    (hq : L.kind q ≠ .queue) : q ∉ chain ∧ q ≠ s.backend.freeListTail := by
  refine ⟨fun hmem => hq (h.queue.kind q hmem), ?_⟩
  rintro rfl
  obtain h0 | hk := h.inv.tail
  · omega
  · exact hq hk

theorem Healthy.loaded (h : Healthy crc s L chain) : ∀ p ∈ chain, s.backend.cache p = loaded crc s.backend p := by
  intro p hp
  obtain ⟨e, he⟩ := Option.isSome_iff_exists.1 (h.cached p (h.queue.kind p hp))
  rw [he, loaded_cached he]

theorem Healthy.linked (h : Healthy crc s L chain) :
    Linked.Chain (queueNext s.backend.cache) 0 s.backend.freeListHead chain :=
  h.queue.linked.congr fun p hp => by rw [queueNext, queueNext, h.loaded p hp]

theorem Healthy.tailAdvance (h : Healthy crc s L chain) :
    ∃ q b' L', storageAllocateTailAdvance s.backend = (some q, b') ∧ Given crc s b' L L' chain chain q := by
  obtain ⟨q, b', L', heq, ht⟩ := h.inv.tailAdvance (k := .client) (.inl rfl)
  have htwo : 2 ≤ q := Nat.le_trans h.inv.table.two_le ht.ge
  obtain ⟨hhome, htail⟩ := h.records ht.ext ht.records ht.same.pageSize
  refine ⟨q, b', L', heq, ⟨htwo, ?_, h.not_queue htwo (by simp [ht.unused]), ?_⟩,
    ⟨ht.inv.own ht.kind ht.entry, h.queue.tailAdvance h.inv ht, fun p hp => ?_, hhome, htail⟩, ht.ext, ht.others,
    fun p hp _ => ht.look p hp.used, fun x hx _ => by rwa [ht.same.cache]⟩
  · by_contra hp
    have := (h.inv.client q hp).1
    simp [ht.unused] at this
  · rw [← ht.same.pageSize]
    exact ht.inv.not_table ht.kind
  · show (b'.cache p).isSome
    rw [ht.same.cache]
    exact h.cached p (ht.queue_old (.inr (by simp)) hp).1

theorem Healthy.allocate (h : Healthy crc s L chain) :
    ∃ q b' L' chain', storageAllocate crc s.backend = (some q, b') ∧ Given crc s b' L L' chain chain' q := by
  cases chain with
  | nil =>
    -- nothing on the list
    have hempty : s.backend.freeListCount = 0 ∨ s.backend.freeListHead = 0 := .inr h.queue.linked
    have hnone : dequeueFromFreeList crc 1000 s.backend = (none, s.backend) := by
      rw [dequeueFromFreeList, if_pos hempty]
    obtain ⟨q, b', L', heq, hgiven⟩ := h.tailAdvance
    exact ⟨q, b', L', [], by simp only [storageAllocate, hnone, heq], hgiven⟩
  | cons head chain =>
    obtain ⟨q, b', chain', heq, hd⟩ := h.queue.dequeue h.inv 999
    have hhealthy : Healthy crc ⟨b', Function.update s.pages q (some none)⟩ L chain' := by
      refine ⟨hd.inv.own hd.kind hd.entry, hd.queue, fun p hp => hd.kept.stays p (h.cached p hp),
        fun p hp hk => (h.home p hp hk).congr hd.pageSize, ?_⟩
      show RecordStart b' b'.physicalTail
      rw [hd.physicalTail]
      exact h.tail.congr hd.pageSize
    refine ⟨q, b', L, chain', by simp only [storageAllocate, heq],
      ⟨hd.two_le, hd.free, h.not_queue hd.two_le (by simp [hd.kind]), h.inv.not_table hd.kind⟩, hhealthy, .refl L,
      fun _ hp _ => .inl hp, hd.look, fun x hx hxq => ?_⟩
    rw [queued_congr h.loaded] at hx
    obtain rfl | hx := List.mem_cons.1 (hd.entries.mem_iff.1 hx)
    · exact absurd rfl hxq
    · rwa [queued_congr hhealthy.loaded]

theorem Queue.released {b : Backend} {pages : Nat → Option (Option Words)} (hinv : Inv crc b pages L)
    (hq : Queue crc b L chain) {p : Nat} (hp : pages p ≠ none) :
    Queue crc { cacheInvalidate b p with entries := Function.update b.entries p 0 } L chain ∧
      queued (loaded crc { cacheInvalidate b p with entries := Function.update b.entries p 0 }) chain =
        queued (loaded crc b) chain ∧
      (∀ x ∈ queued (loaded crc b) chain, x.1 ≠ p) ∧
      ∀ x : Nat, indirLookup { cacheInvalidate b p with entries := Function.update b.entries p 0 } x =
        if x = p then 0 else indirLookup b x := by
  obtain ⟨hk, hlive⟩ := hinv.client p hp
  have hrange : p < totalEntries b := hinv.table.in_range (by simp [hk])
  have hnew : ∀ x ∈ queued (loaded crc b) chain, x.1 ≠ p := by
    rintro x hx rfl
    exact hlive (hq.free x hx)
  have hlook : ∀ x : Nat, indirLookup { cacheInvalidate b p with
      entries := Function.update b.entries p 0 } x = if x = p then 0 else indirLookup b x :=
    indirLookup_update (b := cacheInvalidate b p) hrange
  have hcache : ∀ x, L.kind x = .queue → (cacheInvalidate b p).cache x = b.cache x := by
    intro x hx
    refine Function.update_of_ne ?_ ..
    rintro rfl
    simp [hk] at hx
  have hloaded : ∀ x ∈ chain, loaded crc { cacheInvalidate b p with
      entries := Function.update b.entries p 0 } x = loaded crc b x := by
    intro x hx
    have hxk := hq.kind x hx
    refine hinv.loaded_congr (L.main_of_queue hxk) rfl (hcache x hxk) ?_ (fun m hm => ?_) fun _ _ => ⟨rfl, rfl⟩
    · refine (hlook x).trans (if_neg ?_)
      rintro rfl
      simp [hk] at hxk
    · refine (hlook m).trans (if_neg ?_)
      rintro rfl
      simp [hk] at hm
  refine ⟨?_, queued_congr hloaded, hnew, hlook⟩
  refine hq.same hloaded ?_ rfl rfl rfl rfl (fun _ _ => rfl) (fun x hx => ?_) fun x hx => ⟨hx, ?_⟩
  · obtain h0 | hkt := hinv.tail
    · refine Function.update_of_ne ?_ ..
      rintro heq
      rw [h0] at heq
      subst heq
      simp [hinv.table.header.1] at hk
    · exact hcache _ hkt
  · rw [hlook, if_neg (hnew x hx)]
  · have hxp : x ≠ p := by
      rintro rfl
      simp [hk] at hx
    rw [hlook, if_neg hxp]

structure Released (crc : Words → UInt32) (s s' : Session) (L L' : Layout) (chain chain' : List Nat) (p : Nat) :
    Prop where
  healthy : Healthy crc s' L' chain'
  ext : L.Extends L'
  old : ∀ x, L.kind x = .none → L'.kind x = .none ∨ L'.kind x = .queue ∨ L'.kind x = .table
  look : ∀ x : Nat, L.kind x ≠ .none → x ≠ p → indirLookup s'.backend x = indirLookup s.backend x
  waiting : queued s'.backend.cache chain' = queued s.backend.cache chain ++ [(p, L.home p)]

theorem Healthy.free (h : Healthy crc s L chain) {p : Nat} (htwo : 2 ≤ p) (hp : s.pages p ≠ none) :
    ∃ L' chain', Released crc s ⟨storageFree crc s.backend p, Function.update s.pages p none⟩ L L' chain chain' p := by
  obtain ⟨hinv, heq⟩ := h.inv.released hp htwo
  obtain ⟨hqueue, hqueued, hnew, hlook⟩ := h.queue.released h.inv hp
  obtain ⟨L', chain', he⟩ := hqueue.enqueue hinv ⟨htwo, .inl (h.inv.client p hp).1⟩
    (by rw [hlook, if_pos rfl]) (by rw [hqueued]; exact hnew)
  obtain ⟨hhome, htail⟩ := h.records he.ext ⟨he.records.tail, he.records.home⟩ he.pageSize
  have hhealthy : Healthy crc ⟨storageFree crc s.backend p, Function.update s.pages p none⟩ L' chain' := by
    rw [heq]
    refine ⟨he.inv, he.queue, fun x hx => ?_, hhome, htail⟩
    obtain hsome | ⟨hxk, hxc⟩ := he.cached x hx
    · exact hsome
    · have hxp : x ≠ p := by
        rintro rfl
        simp [(h.inv.client x hp).1] at hxk
      rw [hxc]
      refine (congrArg Option.isSome (Function.update_of_ne hxp none s.backend.cache)).trans (h.cached x hxk)
  refine ⟨L', chain', hhealthy, he.ext, he.old, fun x hx hxp => ?_, ?_⟩
  · rw [heq]
    exact (he.look x hx).trans ((hlook x).trans (if_neg hxp))
  · rw [queued_congr hhealthy.loaded, queued_congr h.loaded, heq]
    exact he.entries.trans (by rw [hqueued])

theorem allocStep_healthy (h : ∃ L chain, Healthy crc s L chain) {c : AllocCall} (hok : c.Ok s = true) :
    ∃ L chain, Healthy crc (allocStep crc s c) L chain := by
  obtain ⟨L, chain, h⟩ := h
  cases c with
  | allocate =>
    obtain ⟨q, b', L', chain', heq, hgiven⟩ := h.allocate
    refine ⟨L', chain', ?_⟩
    simp only [allocStep, step, heq]
    exact hgiven.healthy
  | tailAdvance =>
    obtain ⟨q, b', L', heq, hgiven⟩ := h.tailAdvance
    refine ⟨L', chain, ?_⟩
    simp only [allocStep, heq]
    exact hgiven.healthy
  | free p =>
    simp only [AllocCall.Ok, Bool.and_eq_true, decide_eq_true_eq] at hok
    obtain ⟨L', chain', hreleased⟩ := h.free hok.1 (by
      intro hnone
      simp [hnone] at hok)
    exact ⟨L', chain', hreleased.healthy⟩

theorem newSession_healthy {pageSize : Nat} (hsize : 120 ≤ pageSize) :
    Healthy crc (newSession crc pageSize) (newLayout pageSize) [] := by
  have hnot : ∀ p, (newLayout pageSize).kind p ≠ .queue := by
    intro p hk
    have hkind := newLayout_kind pageSize p
    simp [hk] at hkind
  refine ⟨newSession_inv hsize, ⟨rfl, by simp, by simp, rfl, .inr ⟨rfl, .inl rfl⟩, List.nodup_nil,
    by simp [queued], fun p hk => absurd hk (hnot p)⟩, fun p hk => absurd hk (hnot p), fun p hp hk => ?_,
    Nat.dvd_mul_left _ _, Nat.le_refl _⟩
  · obtain rfl | rfl := newLayout_used hk <;> omega

/-- The records of the pages from `2` on and those on the free list: no two are the same, and each
lies in the file behind the two reserved ones. -/
structure RecordsApart (b : Backend) (chain : List Nat) : Prop where
  entry_start : ∀ p : Nat, 2 ≤ p → indirLookup b p ≠ 0 →
    RecordStart b (indirLookup b p) ∧ indirLookup b p < b.physicalTail
  queued_start : ∀ x ∈ queued b.cache chain, RecordStart b x.2 ∧ x.2 < b.physicalTail
  entry_inj : ∀ p q : Nat, 2 ≤ p → 2 ≤ q → indirLookup b p ≠ 0 → indirLookup b p = indirLookup b q → p = q
  queued_nodup : ((queued b.cache chain).map Prod.snd).Nodup
  entry_queued : ∀ p : Nat, 2 ≤ p → indirLookup b p ≠ 0 → ∀ x ∈ queued b.cache chain, indirLookup b p ≠ x.2

theorem Healthy.apart (h : Healthy crc s L chain) : RecordsApart s.backend chain := by
  have hqueued : queued s.backend.cache chain = queued (Storage.loaded crc s.backend) chain :=
    queued_congr h.loaded
  have hentry : ∀ x ∈ queued s.backend.cache chain, L.WasClient x.1 ∧ x.2 = L.home x.1 := by
    rw [hqueued]
    exact fun x hx => h.queue.entry h.inv hx
  constructor
  · intro p hp hlook
    obtain ⟨hhome, hk⟩ := h.inv.table.entry p hlook
    rw [hhome]
    exact ⟨h.home p hp hk, h.inv.table.home_lt p hk⟩
  · intro x hx
    obtain ⟨hc, hoff⟩ := hentry x hx
    rw [hoff]
    exact ⟨h.home _ hc.1 hc.used, h.inv.table.home_lt _ hc.used⟩
  · intro p q _ _ hlook heq
    obtain ⟨hp, hkp⟩ := h.inv.table.entry p hlook
    obtain ⟨hq, hkq⟩ := h.inv.table.entry q (heq ▸ hlook)
    exact h.inv.table.home_inj p q hkp hkq (by rw [← hp, ← hq, heq])
  · -- the offsets are the homes of the pages, which are all different
    have hmap : (queued s.backend.cache chain).map Prod.snd =
        ((queued s.backend.cache chain).map Prod.fst).map L.home := by
      rw [List.map_map]
      exact List.map_congr_left fun x hx => (hentry x hx).2
    have hused : ∀ p ∈ (queued s.backend.cache chain).map Prod.fst, L.kind p ≠ .none := by
      intro p hp
      obtain ⟨x, hx, rfl⟩ := List.mem_map.1 hp
      exact (hentry x hx).1.used
    have hnodup := h.queue.nodup
    rw [← hqueued] at hnodup
    rw [hmap]
    exact hnodup.map_on fun p hp q hq heq => h.inv.table.home_inj p q (hused p hp) (hused q hq) heq
  · intro p _ hlook x hx heq
    obtain ⟨hhome, hk⟩ := h.inv.table.entry p hlook
    obtain ⟨hc, hoff⟩ := hentry x hx
    have hpx := h.inv.table.home_inj p x.1 hk hc.used (by rw [← hhome, ← hoff, heq])
    subst hpx
    exact hlook (h.queue.free x (hqueued ▸ hx))

end Runs

/-- **Single pages are fresh.** From a new file on, whatever single pages were allocated and freed
before: a page that `storage_allocate` or `storage_allocate_tail_advance` returns is not reserved, not
allocated, not on the free list and not the entry of an overflow page; no allocated page is on the free
list or the entry of an overflow page; and no two records overlap. -/
theorem allocation_fresh {crc : Words → UInt32} {pageSize : Nat} (hsize : 120 ≤ pageSize)
    (calls : List AllocCall) (hrun : Run.AllSteps (allocStep crc) (fun s c => c.Ok s = true)
      (newSession crc pageSize) calls) :
    let s := allocRun crc (newSession crc pageSize) calls
    ∃ chain, Linked.Chain (queueNext s.backend.cache) 0 s.backend.freeListHead chain ∧
      (∀ q, (storageAllocate crc s.backend).1 = some q → Fresh s chain q) ∧
      (∀ q, (storageAllocateTailAdvance s.backend).1 = some q → Fresh s chain q) ∧
      (∀ q, 2 ≤ q → s.pages q ≠ none → (q ∉ chain ∧ q ≠ s.backend.freeListTail) ∧
        ∀ i, q ≠ overflowLogical s.backend.pageSize i) ∧
      RecordsApart s.backend chain := by
  obtain ⟨L, chain, h⟩ : ∃ L chain, Healthy crc (allocRun crc (newSession crc pageSize) calls) L chain :=
    Run.invariant (fun s => ∃ L chain, Healthy crc s L chain) (fun _ _ hs hok => allocStep_healthy hs hok)
      ⟨_, _, newSession_healthy hsize⟩ hrun
  refine ⟨chain, h.linked, fun q hq => ?_, fun q hq => ?_, fun q htwo hq => ?_, h.apart⟩
  · obtain ⟨q', b', L', chain', heq, hgiven⟩ := h.allocate
    rw [heq] at hq
    cases hq
    exact hgiven.fresh
  · obtain ⟨q', b', L', heq, hgiven⟩ := h.tailAdvance
    rw [heq] at hq
    cases hq
    exact hgiven.fresh
  · have hk := (h.inv.client q hq).1
    exact ⟨h.not_queue htwo (by simp [hk]), h.inv.not_table hk⟩

theorem allocation_fresh_after_free :
    let s := allocRun wordSum (newSession wordSum 512) [.allocate, .tailAdvance, .free 2]
    (storageAllocate wordSum s.backend).1 = some 2 ∧ ∃ chain, Fresh s chain 2 := by
  have hsome : (storageAllocate wordSum (allocRun wordSum (newSession wordSum 512)
      [.allocate, .tailAdvance, .free 2]).backend).1 = some 2 := by
    decide +kernel
  have hrun : Run.AllSteps (allocStep wordSum) (fun s c => c.Ok s = true) (newSession wordSum 512)
      [.allocate, .tailAdvance, .free 2] := by
    decide +kernel
  obtain ⟨chain, -, hfresh, -⟩ := allocation_fresh (by decide) _ hrun
  exact ⟨hsome, chain, hfresh 2 hsome⟩

end Storage
end SphereVFS
