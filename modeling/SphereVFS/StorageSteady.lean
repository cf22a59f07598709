import SphereVFS.StorageFresh
import SphereVFS.StorageFrame

/-!
# SphereVFS.StorageSteady

The free list through flushes. A flush writes its pages and may take siblings from it, and drain one of
its pages on the way: the list stays what the calls made of it.

`Tracks` says which pages the list names: those of a list of freed pages that have no entry again, each
with the offset of its record.
-/

namespace SphereVFS
namespace Storage

open Mirror

/-- The free list names the pages of `freed` that are still free. -/
structure Tracks (crc : Words → UInt32) (b : Backend) (L : Layout) (chain : List Nat)
    (freed : List (Nat × Nat)) : Prop where
  client : ∀ x ∈ freed, L.WasClient x.1 ∧ x.2 = L.home x.1
  entries : (queued (loaded crc b) chain).Perm (freed.filter fun x => indirLookup b x.1 = 0)

/-- Page `q` was allocated, from the free list if there is one. -/
structure Taken (crc : Words → UInt32) (pages : Nat → Option (Option Words)) (b b' : Backend)
    (L L' : Layout) (q : Nat) (chain chain' : List Nat) : Prop where
  alloc : Allocated crc pages b b' L L' q
  queue : Queue crc b' L' chain'
  sub : chain' ⊆ chain
  live : ∀ p ∈ chain', indirLookup b' p ≠ 0 → indirLookup b p ≠ 0
  old : chain' ≠ [] → ∀ x, L.kind x = .none → L'.kind x = .none
  fresh : ∀ x, L.kind x = .none → L'.kind x ≠ .none → b.physicalTail ≤ L'.home x
  look : ∀ x, L.WasClient x → x ≠ q → indirLookup b' x = indirLookup b x
  listed : queued (loaded crc b) chain = [] ∧ queued (loaded crc b') chain' = [] ∨
    (queued (loaded crc b) chain).Perm ((q, L.home q) :: queued (loaded crc b') chain') ∧
      b'.totalPages = b.totalPages

section Take

variable {crc : Words → UInt32} {b b' : Backend} {pages : Nat → Option (Option Words)} {L L' : Layout}
  {chain chain' : List Nat} {q : Nat} {freed : List (Nat × Nat)}

theorem queueFrom_perm (n : Nat) : ∀ {head : Nat} {chain : List Nat},
    Linked.Chain (queueNext (loaded crc b)) 0 head chain → (∀ p ∈ chain, (loaded crc b p).isSome) →
    ∃ rest, ((queued (loaded crc b) chain).map Prod.fst).Perm (queueFrom crc b n head ++ rest) := by
  induction n with
  | zero => exact fun _ _ => ⟨_, .refl _⟩
  | succ n ih =>
    intro head chain hlinked hpage
    cases chain with
    | nil =>
      obtain rfl : head = 0 := hlinked
      exact ⟨[], by simp [queued]⟩
    | cons p chain =>
      obtain ⟨rfl, hne, hlinked⟩ := hlinked
      obtain ⟨e, he⟩ := Option.isSome_iff_exists.1 (hpage head List.mem_cons_self)
      rw [queueNext_cached he] at hlinked
      obtain ⟨rest, hrest⟩ := ih hlinked fun x hx => hpage x (List.mem_cons_of_mem _ hx)
      refine ⟨rest, ?_⟩
      have hentries : (pageEntries e.payload).map Prod.fst =
          (List.range (e.payload 1)).map fun i => e.payload (2 + 2 * i) := by
        rw [pageEntries, List.map_map]
        rfl
      rw [← List.singleton_append, queued_append, queued_single he, List.map_append, hentries,
        queueFrom_succ hne (loaded_payload he), List.append_assoc]
      exact (List.reverse_perm _).symm.append hrest

theorem Queue.sound (h : Queue crc b L chain) : QueueSound crc b := by
  obtain ⟨rest, hperm⟩ := queueFrom_perm b.totalPages h.linked fun p hp => by
    obtain ⟨e, he, -⟩ := h.page p hp
    simp [he]
  have hnodup := hperm.nodup_iff.1 h.nodup
  refine .inr ⟨(List.nodup_append.1 hnodup).1, fun q hq => ?_⟩
  obtain ⟨x, hx, rfl⟩ := List.mem_map.1 (hperm.mem_iff.2 (List.mem_append_left _ hq))
  exact h.free x hx

theorem Queue.allocate (h : Inv crc b pages L) (hq : Queue crc b L chain) :
    ∃ q b' L' chain', storageAllocate crc b = (some q, b') ∧ Taken crc pages b b' L L' q chain chain' := by
  cases chain with
  | nil =>
    have hempty : b.freeListCount = 0 ∨ b.freeListHead = 0 := .inr hq.linked
    have hnone : dequeueFromFreeList crc 1000 b = (none, b) := by
      rw [dequeueFromFreeList, if_pos hempty]
    obtain ⟨q, b', L', heq, ht⟩ := h.tailAdvance (k := .client) (.inl rfl)
    have hle : b.totalPages ≤ b'.totalPages := Nat.le_of_lt (Nat.lt_of_le_of_lt ht.ge ht.lt)
    have hqueue := hq.tailAdvance h ht
    refine ⟨q, b', L', [], by simp only [storageAllocate, hnone, heq],
      ⟨ht.inv, hqueue.sound, ht.ext, ?_, ht.kind, ht.entry, ?_, Nat.le_trans h.table.two_le ht.ge⟩,
      hqueue, List.Subset.refl _, fun _ hp => absurd hp (by simp), fun hne => absurd rfl hne,
      ht.records.fresh, fun x hx _ => ht.look x hx.used, .inl ⟨rfl, rfl⟩⟩
    · exact ⟨ht.same.pageSize, hle, ht.same.disk, fun _ _ => by rw [ht.same.cache],
        fun _ hx => by rwa [ht.same.cache]⟩
    · by_contra hp
      exact absurd ht.unused (by simp [(h.client q hp).1])
  | cons head chain =>
    obtain ⟨q, b', chain', heq, hd⟩ := hq.dequeue h 999
    exact ⟨q, b', L, chain', by simp only [storageAllocate, heq],
      ⟨hd.inv, hd.queue.sound, .refl L, hd.kept, hd.kind, hd.entry, hd.free, hd.two_le⟩, hd.queue, hd.sub, hd.live,
      fun _ _ hx => hx, fun _ hx hx' => absurd hx hx', hd.look,
      .inr ⟨hd.entries, hd.totalPages⟩⟩

theorem Taken.tracks (h : Taken crc pages b b' L L' q chain chain') (ht : Tracks crc b L chain freed) :
    Tracks crc b' L' chain' freed := by
  have hclient : ∀ x ∈ freed, L'.WasClient x.1 ∧ x.2 = L'.home x.1 := by
    intro x hx
    obtain ⟨hc, hoff⟩ := ht.client x hx
    exact ⟨h.alloc.ext.wasClient hc, by rw [hoff, (h.alloc.ext.used _ hc.used).2]⟩
  have hlook : ∀ x ∈ freed, indirLookup b' x.1 = 0 ↔ indirLookup b x.1 = 0 ∧ x.1 ≠ q := by
    intro x hx
    by_cases hxq : x.1 = q
    · simp [hxq, h.alloc.entry]
    · rw [h.look x.1 (ht.client x hx).1 hxq]
      simp [hxq]
  have hfilter : (freed.filter fun x => indirLookup b' x.1 = 0) =
      (freed.filter fun x => indirLookup b x.1 = 0).filter fun x => x.1 ≠ q := by
    rw [List.filter_filter]
    refine List.filter_congr fun x hx => ?_
    simp [hlook x hx, and_comm]
  refine ⟨hclient, ?_⟩
  rw [hfilter]
  have hperm := ht.entries.filter fun x => decide (x.1 ≠ q)
  obtain ⟨hnil, hnil'⟩ | ⟨hentries, -⟩ := h.listed
  · rw [hnil] at hperm
    rw [hnil']
    exact hperm
  · have hself : (queued (loaded crc b') chain').filter (fun x => decide (x.1 ≠ q)) =
        queued (loaded crc b') chain' := by
      refine List.filter_eq_self.2 fun x hx => ?_
      have hxq : x.1 ≠ q := by
        rintro rfl
        exact h.alloc.entry (h.queue.free x hx)
      simpa using hxq
    have htaken := hentries.filter fun x => decide (x.1 ≠ q)
    rw [List.filter_cons_of_neg (by simp), hself] at htaken
    exact htaken.symm.trans hperm

def Ordered (b : Backend) (L : Layout) (chain : List Nat) : Prop :=
  ∀ p ∈ chain, indirLookup b p ≠ 0 → ∀ x, L.WasClient x → L.home x < L.home p

theorem Ordered.taken (ho : Ordered b L chain) (hq : Queue crc b L chain)
    (h : Taken crc pages b b' L L' q chain chain') : Ordered b' L' chain' := by
  intro p hp hlive x hx
  have hpk := hq.kind p (h.sub hp)
  have hused : L.kind x ≠ .none := by
    intro hnone
    exact hx.used (h.old (List.ne_nil_of_mem hp) x hnone)
  obtain ⟨hk, hhome⟩ := h.alloc.ext.used x hused
  rw [hhome, (h.alloc.ext.used p (by simp [hpk])).2]
  refine ho p (h.sub hp) (h.live p hp hlive) x ?_
  rw [Layout.WasClient, ← hk]
  exact hx

theorem Ordered.enqueued (ho : Ordered b L chain) (hinv : Inv crc b pages L) (hq : Queue crc b L chain)
    (h : Enqueued crc pages b b' L L' q chain chain') : Ordered b' L' chain' := by
  intro p hp hlive x hx
  obtain ⟨hk, hhome⟩ := h.ext.used x (h.old_client hx)
  rw [hhome]
  obtain hpc | hnone := h.added p hp hlive
  · have hpk : L.kind p ≠ .none := by simp [hq.kind p hpc]
    rw [h.look p hpk] at hlive
    rw [(h.ext.used p hpk).2]
    refine ho p hpc hlive x ?_
    rw [Layout.WasClient, ← hk]
    exact hx
  · have hpk : L'.kind p ≠ .none := by simp [h.queue.kind p hp]
    exact Nat.lt_of_lt_of_le (hinv.table.home_lt x (h.old_client hx)) (h.records.fresh p hnone hpk)

end Take

/-! ## Writing a page -/

structure Steady (crc : Words → UInt32) (b : Backend) (pages : Nat → Option (Option Words)) (L : Layout)
    (chain : List Nat) : Prop where
  inv : Inv crc b pages L
  queue : Queue crc b L chain
  uncached : ∀ p, pages p ≠ none → b.cache p = none

structure Settled (crc : Words → UInt32) (pages : Nat → Option (Option Words)) (b b' : Backend)
    (L L' : Layout) (chain chain' : List Nat) : Prop where
  steady : Steady crc b' pages L' chain'
  tracks : ∀ freed, Tracks crc b L chain freed → Tracks crc b' L' chain' freed
  present : ∀ s, (b.disk.hdr s).isSome → (b'.disk.hdr s).isSome
  pageSize : b'.pageSize = b.pageSize
  ordered : Ordered b L chain → Ordered b' L' chain'

def TableReady (b : Backend) (L : Layout) : Prop := ∀ p, L.kind p = .table → WritesHome b (L.home p)

section Write

variable {crc : Words → UInt32} {b b' b1 : Backend} {pages : Nat → Option (Option Words)} {L L' L1 : Layout}
  {chain chain' : List Nat} {o p : Nat}

theorem Settled.refl (h : Steady crc b pages L chain) : Settled crc pages b b L L chain chain :=
  ⟨h, fun _ ht => ht, fun _ hs => hs, rfl, fun ho => ho⟩

theorem Settled.trans {b2 : Backend} {L2 : Layout} {chain2 : List Nat}
    (h1 : Settled crc pages b b1 L L1 chain chain')
    (h2 : Settled crc pages b1 b2 L1 L2 chain' chain2) : Settled crc pages b b2 L L2 chain chain2 :=
  ⟨h2.steady, fun freed ht => h2.tracks freed (h1.tracks freed ht), fun s hs => h2.present s (h1.present s hs),
    h2.pageSize.trans h1.pageSize, fun ho => h2.ordered (h1.ordered ho)⟩

theorem Queue.withDisk (h : Queue crc b L chain) {d : Disk Words}
    (hloaded : ∀ p ∈ chain, loaded crc { b with disk := d } p = loaded crc b p) :
    Queue crc { b with disk := d } L chain :=
  h.same hloaded rfl rfl rfl rfl rfl (fun _ _ => rfl) (fun _ _ => rfl) fun _ hk => ⟨hk, rfl⟩

theorem Tracks.withDisk {freed : List (Nat × Nat)} (h : Tracks crc b L chain freed) {d : Disk Words}
    (hloaded : ∀ p ∈ chain, loaded crc { b with disk := d } p = loaded crc b p) :
    Tracks crc { b with disk := d } L chain freed :=
  ⟨h.client, by rw [queued_congr hloaded]; exact h.entries⟩

theorem Queue.adopt {q : Nat} (h : Queue crc b L chain) (hq : L.kind q = .client) :
    Queue crc b ⟨Function.update L.kind q (.sibling o), L.home⟩ chain := by
  refine ⟨h.linked, h.page, fun p hp => ?_, h.count, h.tail, h.nodup, h.free, fun p hk => ?_⟩
  · have hpq : p ≠ q := by
      rintro rfl
      have := h.kind p hp
      simp [hq] at this
    exact (Function.update_of_ne hpq ..).trans (h.kind p hp)
  · have hpq : p ≠ q := by
      rintro rfl
      simp at hk
    simp only [Function.update_of_ne hpq] at hk
    exact h.drained p hk

theorem Layout.wasClient_adopt {q x : Nat} (h : L.WasClient x) :
    (⟨Function.update L.kind q (.sibling o), L.home⟩ : Layout).WasClient x := by
  refine ⟨h.1, ?_⟩
  by_cases hx : x = q
  · exact .inr ⟨o, by simp [hx]⟩
  · simpa [hx] using h.2

theorem Layout.wasClient_of_adopt {q x : Nat} (hq : L.kind q = .client) (htwo : 2 ≤ q)
    (h : (⟨Function.update L.kind q (.sibling o), L.home⟩ : Layout).WasClient x) : L.WasClient x := by
  by_cases hx : x = q
  · subst hx
    exact ⟨htwo, .inl hq⟩
  · refine ⟨h.1, ?_⟩
    simpa [hx] using h.2

section

variable (h : Steady crc b pages L chain) {flags : Nat} {payload : Backend → Words}
  (ho : L.Main o) (hoff : physicalOffset b p = L.home o) (hclient : L.kind o = .client → pages o = some none)
  (hcached : L.kind o = .queue → (b.cache o).isSome)
  (hqueue : L.kind o = .queue → ∀ b1 L1, Inv crc b1 pages L1 → Kept pages b b1 →
    L1.kind o = .queue → QueuePage L1 o (payload b1))
  (hmax : (Storage.mirrorWrite crc b p payload flags).2.totalPages ≤ 2 ^ 31)

include h ho hoff hclient hcached hqueue hmax

/-- `mirror_write` on a page that the client has not written through the cache, given what an allocation
would do. -/
theorem Steady.mirrorWrite_from {q : Nat} {chain1 : List Nat}
    (halloc : storageAllocate crc b = (some q, b1)) (ht : Taken crc pages b b1 L L1 q chain chain1) :
    ∃ b' L' chain', Storage.mirrorWrite crc b p payload flags = (true, b') ∧
      Mirrored crc pages b b' L L' o ∧ WrittenBy b b' L L' b1 L1 o q ∧
      Settled crc pages b b' L L' chain chain' := by
  have hdirty : HeldDirty pages b o := by
    intro v hv
    have hk := (h.inv.client o (by simp [hv])).1
    rw [hclient hk] at hv
    cases hv
  obtain ⟨b', L', heq, hm, hw, -⟩ := h.inv.mirrorWrite_from h.queue.sound ho hoff
    (fun hk => by simp [hclient hk]) hcached hdirty hqueue hmax halloc ht.alloc
  have huncached : ∀ x, pages x ≠ none → b'.cache x = none :=
    fun x hx => (hm.cache x hx).trans (h.uncached x hx)
  -- a page of the list that is read from the file is another page, so its records are not touched
  have hrecords : ∀ x ∈ chain, b.cache x = none → ∀ s, L.Owns x s →
      b'.disk.hdr s = b.disk.hdr s ∧ b'.disk.pay s = b.disk.pay s := by
    intro x hx hnone
    have hk := h.queue.kind x hx
    refine hm.records x (L.main_of_queue hk) ?_ ((hm.kind x (by simp [hk])).resolve_right (by simp [hk]))
    rintro rfl
    simp [hnone] at hcached
    exact hcached hk
  refine ⟨b', L', if TakesSibling b.disk (L.home o) then chain1 else chain, heq, hm, hw, ?_⟩
  obtain ⟨d, hw⟩ := hw
  split at hw
  · next hsib =>
    obtain ⟨rfl, rfl⟩ := hw
    rw [if_pos hsib]
    have hloaded : ∀ x ∈ chain1, loaded crc { b1 with disk := d } x = loaded crc b1 x := by
      intro x hx
      rcases he : b1.cache x with _ | e
      · have hk := h.queue.kind x (ht.sub hx)
        have hnone : b.cache x = none := by
          by_contra hsome
          have := ht.alloc.kept.stays x (Option.isSome_iff_ne_none.2 hsome)
          simp [he] at this
        refine ht.alloc.inv.loaded_congr (L1.main_of_queue (ht.queue.kind x hx)) rfl rfl rfl (fun _ _ => rfl)
          fun s hs => ?_
        rw [ht.alloc.ext.owns_iff (by simp [hk])] at hs
        have := hrecords x (ht.sub hx) hnone s hs
        rwa [← ht.alloc.kept.disk] at this
      · rw [loaded_cached he]
        exact loaded_cached he
    refine ⟨⟨hm.inv, (ht.queue.adopt ht.alloc.kind).withDisk hloaded, huncached⟩, fun freed hf => ?_, hm.present,
      hm.pageSize, fun hord p hp hlive x hx => ?_⟩
    rotate_left
    · exact hord.taken h.queue ht p hp hlive x (Layout.wasClient_of_adopt ht.alloc.kind ht.alloc.two_le hx)
    have hf1 := (ht.tracks hf).withDisk hloaded
    exact ⟨fun x hx => ⟨Layout.wasClient_adopt (hf1.client x hx).1, (hf1.client x hx).2⟩, hf1.entries⟩
  · next hsib =>
    obtain ⟨rfl, rfl⟩ := hw
    rw [if_neg hsib]
    have hloaded : ∀ x ∈ chain, loaded crc { b with disk := d } x = loaded crc b x := by
      intro x hx
      rcases he : b.cache x with _ | e
      · exact h.inv.loaded_congr (L'.main_of_queue (h.queue.kind x hx)) rfl rfl rfl (fun _ _ => rfl)
          (hrecords x hx he)
      · rw [loaded_cached he]
        exact loaded_cached he
    exact ⟨⟨hm.inv, h.queue.withDisk hloaded, huncached⟩, fun freed hf => hf.withDisk hloaded, hm.present, rfl,
      fun ho => ho⟩

theorem Steady.mirrorWrite :
    ∃ b' L' chain', Storage.mirrorWrite crc b p payload flags = (true, b') ∧
      Mirrored crc pages b b' L L' o ∧ Settled crc pages b b' L L' chain chain' := by
  obtain ⟨q, b1, L1, chain1, halloc, ht⟩ := h.queue.allocate h.inv
  obtain ⟨b', L', chain', heq, hm, -, hs⟩ := h.mirrorWrite_from ho hoff hclient hcached hqueue hmax halloc ht
  exact ⟨b', L', chain', heq, hm, hs⟩

end

/-! ## Overflow pages -/

theorem WritesHome.frame (h : Inv crc b pages L) (hp : L.Main p) (hw : WritesHome b (L.home p))
    (hdisk : ∀ s, L.Owns p s → b'.disk.hdr s = b.disk.hdr s)
    (hlook : ∀ m : Nat, L.kind m = .sibling p → indirLookup b' m = indirLookup b m) :
    WritesHome b' (L.home p) := by
  have hcur : ∀ s, L.Owns p s → currentHeader b'.disk s = currentHeader b.disk s := by
    intro s hs
    rw [currentHeader, currentHeader, hdisk s hs]
  rw [WritesHome, hcur _ (.inl rfl)]
  by_cases hgen : (currentHeader b.disk (L.home p)).generation = 0
  · exact .inl hgen
  obtain ⟨hne, hle⟩ := hw.resolve_left hgen
  obtain ⟨m, hm, hk, -⟩ := (h.disk.mirror p hp _ (currentHeader_some hgen)).resolve_left hne
  refine .inr ⟨hne, ?_⟩
  rw [hm, h.sibling_look hk] at hle
  rwa [hm, hlook m hk, h.sibling_look hk, hcur _ (.inr ⟨m, hk, rfl⟩)]

theorem TableReady.written {q : Nat} {chain1 : List Nat} (hr : TableReady b L) (h : Inv crc b pages L)
    (ht : Taken crc pages b b1 L L1 q chain chain1) (hm : Mirrored crc pages b b' L L' o)
    (hw : WrittenBy b b' L L' b1 L1 o q) (ho : L.kind o = .queue ∨ L.kind o = .header) : TableReady b' L' := by
  intro p hp
  have hok : L'.kind o = L.kind o :=
    (hm.kind o (by obtain hk | hk := ho <;> simp [hk])).resolve_right (by obtain hk | hk := ho <;> simp [hk])
  have hpo : p ≠ o := by
    rintro rfl
    rw [hok] at hp
    obtain hk | hk := ho <;> simp [hk] at hp
  by_cases hnone : L.kind p = .none
  · -- the page came into use with the sibling
    left
    have hmain : L'.Main p := by simp [Layout.Main, hp]
    have htail : b.physicalTail ≤ L'.home p := by
      obtain ⟨d, hw⟩ := hw
      split at hw
      · obtain ⟨-, rfl⟩ := hw
        have hpq : p ≠ q := by
          rintro rfl
          simp at hp
        simp only [Function.update_of_ne hpq] at hp
        exact ht.fresh p hnone (by simp [hp])
      · obtain ⟨-, rfl⟩ := hw
        simp [hnone] at hp
    have hblank := (h.disk.fresh _ htail).1
    rw [← (hm.frame p hmain hpo _ (.inl rfl)).1] at hblank
    simp [currentHeader, hblank]
  · have hk : L.kind p = .table := by
      obtain ⟨d, hw⟩ := hw
      split at hw
      · obtain ⟨-, rfl⟩ := hw
        have hpq : p ≠ q := by
          rintro rfl
          simp at hp
        simp only [Function.update_of_ne hpq] at hp
        rw [← (ht.alloc.ext.used p hnone).1, hp]
      · obtain ⟨-, rfl⟩ := hw
        exact hp
    have hmain : L.Main p := by simp [Layout.Main, hk]
    rw [hm.home p hnone]
    refine (hr p hk).frame h hmain (fun s hs => (hm.records p hmain hpo (hp.trans hk.symm) s hs).1) fun m hmk => ?_
    have hmk' : L'.kind m = .sibling p := by
      rw [← hmk]
      exact (hm.kind m (by simp [hmk])).resolve_right (by simp [hmk])
    rw [hm.inv.sibling_look hmk', h.sibling_look hmk, hm.home m (by simp [hmk])]

/-! ## Allocating and freeing -/

theorem Steady.take {q : Nat} (h : Steady crc b pages L chain) (ht : Taken crc pages b b1 L L1 q chain chain') :
    Steady crc b1 (Function.update pages q (some none)) L1 chain' := by
  refine ⟨ht.alloc.inv.own ht.alloc.kind ht.alloc.entry, ht.queue, fun x hx => ?_⟩
  by_cases hxq : x = q
  · subst hxq
    exact ht.alloc.inv.uncached ht.alloc.free (by simp [ht.alloc.kind])
  · rw [Function.update_of_ne hxq] at hx
    rw [ht.alloc.kept.cache x hx, h.uncached x hx]

theorem Steady.grow (h : Steady crc b pages L chain) (hg : Grown crc pages b b1 L L1) :
    Steady crc b1 pages L1 chain :=
  ⟨hg.inv, h.queue.grown h.inv hg, fun x hx => by rw [hg.same.cache]; exact h.uncached x hx⟩

/-- Page `p` was given back. -/
structure GivenBack (crc : Words → UInt32) (pages : Nat → Option (Option Words)) (b b' : Backend)
    (L L' : Layout) (p : Nat) (chain chain' : List Nat) : Prop where
  steady : Steady crc b' (Function.update pages p none) L' chain'
  ext : L.Extends L'
  disk : b'.disk = b.disk
  pageSize : b'.pageSize = b.pageSize
  ordered : Ordered b L chain → Ordered b' L' chain'
  fresh : ∀ x, L.kind x = .none → L'.kind x ≠ .none → b.physicalTail ≤ L'.home x
  entries : queued (loaded crc b') chain' = queued (loaded crc b) chain ++ [(p, L.home p)]
  look : ∀ x : Nat, L.kind x ≠ .none → indirLookup b' x = if x = p then 0 else indirLookup b x

theorem Steady.free (h : Steady crc b pages L chain) (htwo : 2 ≤ p) (hp : pages p ≠ none) :
    ∃ L' chain', GivenBack crc pages b (storageFree crc b p) L L' p chain chain' := by
  obtain ⟨hinv, heq⟩ := h.inv.released hp htwo
  obtain ⟨hqueue, hqueued, hnew, hlook⟩ := h.queue.released h.inv hp
  obtain ⟨L', chain', he⟩ := hqueue.enqueue hinv ⟨htwo, .inl (h.inv.client p hp).1⟩
    (by rw [hlook, if_pos rfl]) (by rw [hqueued]; exact hnew)
  have hcache : ∀ x, Function.update pages p none x ≠ none → (storageFree crc b p).cache x = none := by
    intro x hx
    have hxp : x ≠ p := by
      rintro rfl
      simp at hx
    rw [Function.update_of_ne hxp] at hx
    rw [h.inv.storageFree_cache hp htwo hx hxp, h.uncached x hx]
  rw [heq] at hcache ⊢
  refine ⟨L', chain', ⟨he.inv, he.queue, hcache⟩, he.ext, he.disk, he.pageSize, fun ho => ?_,
    he.records.fresh, ?_, fun x hx => ?_⟩
  · refine Ordered.enqueued (fun x hx hlive => ho x hx ?_) hinv hqueue he
    rw [hlook] at hlive
    split at hlive
    · exact absurd rfl hlive
    · exact hlive
  · refine he.entries.trans ?_
    rw [hqueued]
  · rw [he.look x hx, hlook]

/-! ## Flushing -/

theorem markClean_payload (b : Backend) (p x : Nat) :
    ((markClean b p).cache x).map CacheEntry.payload = (b.cache x).map CacheEntry.payload := by
  simp only [markClean, cacheModify]
  by_cases hx : x = p
  · subst hx
    rw [Function.update_self, Option.map_map]
    rfl
  · rw [Function.update_of_ne hx]

theorem queueNext_payload {cache cache' : Nat → Option CacheEntry} {x : Nat}
    (h : (cache' x).map CacheEntry.payload = (cache x).map CacheEntry.payload) :
    queueNext cache' x = queueNext cache x := by
  rw [queueNext, queueNext]
  rcases hc : cache x with _ | e <;> rcases hc' : cache' x with _ | e' <;> simp_all

theorem entriesAt_payload {cache cache' : Nat → Option CacheEntry} {x : Nat}
    (h : (cache' x).map CacheEntry.payload = (cache x).map CacheEntry.payload) :
    entriesAt cache' x = entriesAt cache x := by
  rw [entriesAt, entriesAt]
  rcases hc : cache x with _ | e <;> rcases hc' : cache' x with _ | e' <;> simp_all

theorem Queue.loaded_markClean (hinv : Inv crc b pages L) (h : Queue crc b L chain) (p : Nat) {x : Nat}
    (hx : x ∈ chain) : (loaded crc (Storage.markClean b p) x).map CacheEntry.payload =
      (loaded crc b x).map CacheEntry.payload := by
  rw [loaded_map, loaded_map, hinv.peek_markClean (L.main_of_queue (h.kind x hx))]

theorem Queue.queued_markClean (hinv : Inv crc b pages L) (h : Queue crc b L chain) (p : Nat) :
    queued (loaded crc (Storage.markClean b p)) chain = queued (loaded crc b) chain :=
  List.flatMap_congr fun _ hx => entriesAt_payload (h.loaded_markClean hinv p hx)

theorem Queue.markClean (hinv : Inv crc b pages L) (h : Queue crc b L chain) (p : Nat) :
    Queue crc (Storage.markClean b p) L chain := by
  have hqueued := h.queued_markClean hinv p
  refine ⟨h.linked.congr fun x hx => queueNext_payload (h.loaded_markClean hinv p hx), fun x hx => ?_, h.kind, ?_,
    ?_, by rw [hqueued]; exact h.nodup, by rw [hqueued]; exact h.free, h.drained⟩
  · obtain ⟨e, he, hpos⟩ := h.page x hx
    have hpay := h.loaded_markClean hinv p hx
    rw [he, Option.map_some, Option.map_eq_some_iff] at hpay
    obtain ⟨e', he', hp'⟩ := hpay
    exact ⟨e', he', hp' ▸ hpos⟩
  · rw [hqueued]
    exact h.count
  · refine h.tail.imp_right (And.imp_right (Or.imp_right ?_))
    have hpay := markClean_payload b p b.freeListTail
    rintro (hnone | ⟨e, he, h0, h1⟩)
    · left
      show (Storage.markClean b p).cache b.freeListTail = none
      simpa [hnone] using hpay
    · right
      rw [he, Option.map_some, Option.map_eq_some_iff] at hpay
      obtain ⟨e', he', hp'⟩ := hpay
      exact ⟨e', he', hp' ▸ h0, hp' ▸ h1⟩

theorem Steady.kind_cached (h : Steady crc b pages L chain) {e : CacheEntry} (he : b.cache p = some e) :
    L.kind p = .queue := by
  obtain hp | ⟨hk, -⟩ := h.inv.cache.kind p e he
  · simp [h.uncached p hp] at he
  · exact hk

theorem Steady.markClean (h : Steady crc b pages L chain) {e : CacheEntry} (he : b.cache p = some e) :
    Settled crc pages b (Storage.markClean b p) L L chain chain := by
  have hnone := h.inv.pages_of_queue (h.kind_cached he)
  refine ⟨⟨h.inv.markClean he fun hp => absurd hnone hp, h.queue.markClean h.inv p, fun x hx => ?_⟩,
    fun freed hf => ⟨hf.client, ?_⟩, fun _ hs => hs, rfl, fun ho => ho⟩
  · have hpay := markClean_payload b p x
    simpa [h.uncached x hx] using hpay
  · rw [h.queue.queued_markClean h.inv]
    exact hf.entries

theorem Steady.flushPage (h : Steady crc b pages L chain) (pr : Priority) (p : Nat)
    (hmax : (flushPage crc pr b p).totalPages ≤ 2 ^ 31) :
    ∃ L' chain', Settled crc pages b (flushPage crc pr b p) L L' chain chain' ∧
      (TableReady b L → TableReady (flushPage crc pr b p) L') := by
  rcases he : b.cache p with _ | e
  · have heq : Storage.flushPage crc pr b p = b := by simp [Storage.flushPage, he]
    rw [heq]
    exact ⟨L, chain, .refl h, id⟩
  by_cases hskip : ¬ e.dirty ∨ e.priority ≠ pr
  · have heq : Storage.flushPage crc pr b p = b := by
      simp only [Storage.flushPage, he]
      exact if_pos hskip
    rw [heq]
    exact ⟨L, chain, .refl h, id⟩
  obtain ⟨hdirty, hpr⟩ : e.dirty = true ∧ e.priority = pr := by simpa using hskip
  obtain ⟨o, ho, hoff, hop, -⟩ := h.inv.flush_target he
  have hk := h.kind_cached he
  have hok : L.kind o = .queue ∨ L.kind o = .header := by
    obtain rfl | ⟨rfl, -⟩ := hop
    · exact .inl hk
    · exact .inr h.inv.table.header.1
  rw [flushPage_totalPages_eq he hdirty hpr] at hmax
  obtain ⟨q, b1, L1, chain1, halloc, ht⟩ := h.queue.allocate h.inv
  obtain ⟨b2, L2, chain2, hw, hm, hby, hs⟩ := h.mirrorWrite_from ho hoff
    (fun hc => by obtain hk | hk := hok <;> simp [hk] at hc)
    (fun hq => by
      obtain rfl | ⟨rfl, -⟩ := hop
      · simp [he]
      · exact absurd hq h.inv.header_not_queue)
    (fun _ b1 L1 h1 hkept hq => by
      obtain rfl | ⟨rfl, -⟩ := hop
      · obtain ⟨e1, he1⟩ := Option.isSome_iff_exists.1 (hkept.stays o (by simp [he]))
        rw [cachedPayload_eq he1]
        exact h1.cached_queue hq he1
      · exact absurd hq h1.header_not_queue) hmax halloc ht
  rw [flushPage_written he hdirty hpr hw]
  obtain ⟨e1, he1⟩ := Option.isSome_iff_exists.1 (hm.stays p (by simp [he]))
  refine ⟨L2, chain2, hs.trans (hs.steady.markClean he1), fun hr => ?_⟩
  have hready : TableReady b2 L2 := hr.written h.inv ht hm hby hok
  exact hready

theorem Steady.flushPages (pr : Priority) (l : List Nat) : ∀ {b : Backend} {L : Layout} {chain : List Nat},
    Steady crc b pages L chain → (l.foldl (Storage.flushPage crc pr) b).totalPages ≤ 2 ^ 31 →
    ∃ L' chain', Settled crc pages b (l.foldl (Storage.flushPage crc pr) b) L L' chain chain' ∧
      (TableReady b L → TableReady (l.foldl (Storage.flushPage crc pr) b) L') := by
  induction l with
  | nil => exact fun h _ => ⟨_, _, .refl h, id⟩
  | cons p l ih =>
    intro b L chain h hmax
    rw [List.foldl_cons] at hmax ⊢
    obtain ⟨L1, chain1, hs1, hr1⟩ := h.flushPage pr p (Nat.le_trans (flushPages_totalPages crc pr l _) hmax)
    obtain ⟨L2, chain2, hs2, hr2⟩ := ih hs1.steady hmax
    exact ⟨L2, chain2, hs1.trans hs2, fun hr => hr2 (hr1 hr)⟩

theorem Steady.flushRounds (l : List Priority) : ∀ {b : Backend} {L : Layout} {chain : List Nat},
    Steady crc b pages L chain → (l.foldl (flushRound crc) b).totalPages ≤ 2 ^ 31 →
    ∃ L' chain', Settled crc pages b (l.foldl (flushRound crc) b) L L' chain chain' ∧
      (TableReady b L → TableReady (l.foldl (flushRound crc) b) L') := by
  induction l with
  | nil => exact fun h _ => ⟨_, _, .refl h, id⟩
  | cons pr l ih =>
    intro b L chain h hmax
    rw [List.foldl_cons] at hmax ⊢
    have hle : ∀ (l : List Priority) (b : Backend), b.totalPages ≤ (l.foldl (flushRound crc) b).totalPages := by
      intro l
      induction l with
      | nil => exact fun _ => Nat.le_refl _
      | cons pr l ih => exact fun b => Nat.le_trans (flushPages_totalPages crc pr _ b) (ih _)
    obtain ⟨L1, chain1, hs1, hr1⟩ := Steady.flushPages pr (dirtyPages b pr) h (Nat.le_trans (hle l _) hmax)
    obtain ⟨L2, chain2, hs2, hr2⟩ := ih hs1.steady hmax
    exact ⟨L2, chain2, hs1.trans hs2, fun hr => hr2 (hr1 hr)⟩

theorem Steady.flushOverflow (n : Nat) : ∀ (i : Nat) {b : Backend} {L : Layout} {chain : List Nat},
    Steady crc b pages L chain → (flushOverflow crc n i b).totalPages ≤ 2 ^ 31 →
    ∃ L' chain', Settled crc pages b (flushOverflow crc n i b) L L' chain chain' := by
  induction n with
  | zero => exact fun _ _ _ _ h _ => ⟨_, _, .refl h⟩
  | succ n ih =>
    intro i b L chain h hmax
    rw [Storage.flushOverflow] at hmax ⊢
    by_cases hi : i < b.overflowCount
    · rw [if_pos hi] at hmax ⊢
      have hk : L.kind (overflowLogical b.pageSize i) = .table := (h.inv.table.table_iff _).2 ⟨i, hi, rfl⟩
      obtain ⟨b1, L1, chain1, hw, -, hs1⟩ := h.mirrorWrite (by simp [Layout.Main, hk])
        (h.inv.offset (h.inv.table.table_live _ hk)) (by simp [hk]) (by simp [hk]) (by simp [hk])
        (Nat.le_trans (flushOverflow_totalPages crc n _ _) hmax)
      rw [hw] at hmax ⊢
      obtain ⟨L2, chain2, hs2⟩ := ih (i + 1) hs1.steady hmax
      exact ⟨L2, chain2, hs1.trans hs2⟩
    · rw [if_neg hi]
      exact ⟨L, chain, .refl h⟩

theorem headerWrites_other (b : Backend) {s : Nat} (hs : s ≠ 0) :
    (b.disk.applyAll (headerWrites crc b)).hdr s = b.disk.hdr s ∧
      (b.disk.applyAll (headerWrites crc b)).pay s = b.disk.pay s := by
  rw [headerWrites]
  split
  · exact ⟨rfl, rfl⟩
  · simp [hs]

theorem Steady.header (h : Steady crc b pages L chain) :
    Settled crc pages b { b with disk := b.disk.applyAll (headerWrites crc b) } L L chain chain := by
  have hloaded : ∀ p ∈ chain, loaded crc { b with disk := b.disk.applyAll (headerWrites crc b) } p =
      loaded crc b p := by
    intro p hp
    have hmain := L.main_of_queue (h.queue.kind p hp)
    refine h.inv.loaded_congr hmain rfl rfl rfl (fun _ _ => rfl) fun s hs => headerWrites_other b ?_
    have hzero : L.Owns 0 0 := .inl h.inv.table.header.2.1.symm
    refine h.inv.table.owns_ne hmain ?_ (h.queue.linked.ne_null hp) hs hzero
    simp [Layout.Main, h.inv.table.header.1]
  exact ⟨⟨h.inv.header, h.queue.withDisk hloaded, h.uncached⟩, fun _ hf => hf.withDisk hloaded,
    fun _ hs => Disk.applyAll_present _ hs, rfl, fun ho => ho⟩

theorem Steady.cacheFlushAll (h : Steady crc b pages L chain)
    (hmax : (cacheFlushAll crc b).totalPages ≤ 2 ^ 31) :
    ∃ L' chain', Settled crc pages b (cacheFlushAll crc b) L L' chain chain' ∧
      (TableReady b L → TableReady (cacheFlushAll crc b) L') :=
  Steady.flushRounds [.data, .pool, .indir, .superblock] h hmax

theorem Steady.storageFlush (h : Steady crc b pages L chain)
    (hmax : (storageFlush crc b).totalPages ≤ 2 ^ 31) :
    ∃ L' chain', Settled crc pages b (storageFlush crc b) L L' chain chain' := by
  obtain ⟨L1, chain1, hs1, -⟩ := h.cacheFlushAll (Nat.le_trans (cacheFlushAll_totalPages_le b) hmax)
  have hpages : (Storage.flushOverflow crc (2 * (Storage.cacheFlushAll crc b).overflowCount + 1) 0
      (Storage.cacheFlushAll crc b)).totalPages ≤ 2 ^ 31 := by
    rw [storageFlush_eq] at hmax
    generalize Storage.flushOverflow crc _ 0 (Storage.cacheFlushAll crc b) = b2 at hmax ⊢
    exact hmax
  obtain ⟨L2, chain2, hs2⟩ := Steady.flushOverflow _ 0 hs1.steady hpages
  rw [storageFlush_eq]
  exact ⟨L2, chain2, (hs1.trans hs2).trans hs2.steady.header⟩

end Write

end Storage
end SphereVFS
