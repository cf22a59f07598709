import SphereVFS.StorageQueue

/-!
# SphereVFS.StorageMirror

`mirror_write` on the backend: it keeps the invariant, it changes only the records of its page, and
the page then reads as the payload that was written.

The first write of a page goes to its home, the second one to a sibling taken from the allocator,
and from then on the two alternate. The sibling is a page like any other until it is written and
linked.
-/

namespace SphereVFS
namespace Storage

open Mirror

section Rewrite

variable {crc : Words → UInt32} {b b' : Backend} {pages : Nat → Option (Option Words)}
  {L L' : Layout} {o : Nat}

/-- Pages the client does not have may become siblings of page `o`. -/
structure Adopts (pages : Nat → Option (Option Words)) (look : Int → Nat) (o : Nat)
    (L L' : Layout) : Prop where
  home : L'.home = L.home
  kind : ∀ x : Nat, L'.kind x = L.kind x ∨
    L'.kind x = .sibling o ∧ L.kind x = .client ∧ pages x = none ∧ look x ≠ 0 ∧ 2 ≤ x

namespace Adopts

variable {look : Int → Nat} (h : Adopts pages look o L L')

include h

theorem kind_of_ne {x : Nat} (hx : L.kind x ≠ .client) : L'.kind x = L.kind x :=
  (h.kind x).resolve_right fun hs => hx hs.2.1

theorem kind_of_pages {x : Nat} (hx : pages x ≠ none) : L'.kind x = L.kind x :=
  (h.kind x).resolve_right fun hs => hx hs.2.2.1

theorem kind_of_main {x : Nat} (hx : L'.Main x) : L'.kind x = L.kind x :=
  (h.kind x).resolve_right fun hs => hx.2 o hs.1

theorem used_iff (x : Nat) : L'.kind x ≠ .none ↔ L.kind x ≠ .none := by
  obtain hx | ⟨hs, hc, -⟩ := h.kind x
  · rw [hx]
  · simp [hs, hc]

theorem main {x : Nat} (hx : L'.Main x) : L.Main x := by
  rw [Layout.Main, ← h.kind_of_main hx]
  exact hx

theorem sibling {m p : Nat} (hp : p ≠ o) : L'.kind m = .sibling p ↔ L.kind m = .sibling p := by
  obtain hm | ⟨hs, hc, -⟩ := h.kind m
  · rw [hm]
  · rw [hs, hc]
    simpa using fun h => hp h.symm

theorem owns {p : Nat} (hp : p ≠ o) (s : Nat) : L'.Owns p s ↔ L.Owns p s := by
  simp only [Layout.Owns, h.home, h.sibling hp]

theorem queuePage {p : Nat} {w : Words} (hw : QueuePage L p w) : QueuePage L' p w := by
  constructor
  · refine hw.next.imp_right fun ⟨hlt, hk⟩ => ⟨hlt, ?_⟩
    rw [h.kind_of_ne (by simp [hk]), hk]
  · intro i hi
    obtain ⟨⟨htwo, hc⟩, hoff⟩ := hw.entry i hi
    rw [h.home]
    refine ⟨⟨htwo, ?_⟩, hoff⟩
    obtain hx | ⟨hs, -⟩ := h.kind (w (2 + 2 * i))
    · rwa [hx]
    · exact .inr ⟨o, hs⟩

theorem table {pageSize totalPages physicalTail overflowCount : Nat} (ho : L.Main o)
    (ht : TableOk pageSize totalPages physicalTail overflowCount look L) :
    TableOk pageSize totalPages physicalTail overflowCount look L' := by
  have hiff : ∀ x, L'.kind x = .table ↔ L.kind x = .table := by
    intro x
    obtain hx | ⟨hs, hc, -⟩ := h.kind x
    · rw [hx]
    · simp [hs, hc]
  refine ⟨ht.size, ht.two_le, ht.room, ?_, ?_, ?_, ?_, ?_, ?_, ?_, ?_, ?_⟩
  · rw [h.home, h.kind_of_ne (by simp [ht.header.1])]
    exact ht.header
  · have hone : L'.kind 1 = L.kind 1 := (h.kind 1).resolve_right fun hs => by
      have := hs.2.2.2.2
      omega
    rw [h.home, hone]
    exact ht.superblock
  · intro p hp
    rw [h.home, h.used_iff]
    exact ht.entry p hp
  · intro p q hp hq
    rw [h.home]
    exact ht.home_inj p q ((h.used_iff p).1 hp) ((h.used_iff q).1 hq)
  · intro p hp
    rw [h.home]
    exact ht.home_lt p ((h.used_iff p).1 hp)
  · intro p
    rw [hiff, ht.table_iff]
  · intro p hp hk
    exact (hiff p).2 (ht.ahead p hp ((h.used_iff p).1 hk))
  · intro p hp
    exact ht.table_live p ((hiff p).1 hp)
  · intro m q hm
    obtain hx | ⟨hs, -, -, hl, -⟩ := h.kind m
    · rw [hx] at hm
      obtain ⟨hl, hq⟩ := ht.sibling_live m q hm
      exact ⟨hl, (h.used_iff q).2 hq⟩
    · rw [hs] at hm
      cases hm
      exact ⟨hl, (h.used_iff o).2 ho.1⟩

end Adopts

/-- What the page holds apart from the file is in a dirty entry of the cache. -/
def HeldDirty (pages : Nat → Option (Option Words)) (b : Backend) (o : Nat) : Prop :=
  ∀ v, pages o = some (some v) → ∃ e, b.cache o = some e ∧ e.dirty = true

theorem Inv.rewrite (h : Inv crc b pages L) {d : Disk Words}
    (hadopt : Adopts pages (indirLookup b) o L L') (ho : L'.Main o)
    (hframe : ∀ s, ¬ L'.Owns o s → d.hdr s = b.disk.hdr s ∧ d.pay s = b.disk.pay s)
    (hhdr : ∀ s, (b.disk.hdr s).isSome → (d.hdr s).isSome)
    (hmirror : ∀ ph, d.hdr (L'.home o) = some ph → ph.mirrorPage = -1 ∨
      ∃ m : Nat, ph.mirrorPage = m ∧ L'.kind m = .sibling o ∧ (d.hdr (L'.home m)).isSome)
    (hqueue : L'.kind o = .queue → ∀ s, L'.Owns o s → ∀ w, d.pay s = some w → QueuePage L' o w)
    (hdirty : HeldDirty pages b o) :
    Inv crc { b with disk := d } pages L' := by
  have htable := hadopt.table (hadopt.main ho) h.table
  -- records of another page are not touched
  have hother : ∀ p, L'.Main p → p ≠ o → ∀ s, L'.Owns p s →
      d.hdr s = b.disk.hdr s ∧ d.pay s = b.disk.pay s := by
    intro p hp hpo s hs
    exact hframe s fun hos => htable.owns_ne hp ho hpo hs hos rfl
  refine ⟨htable, ⟨?_, ?_, ?_⟩, ⟨h.cache.listed, ?_⟩, ?_, ?_, ?_, ?_⟩
  · intro s hs
    have hfar : ¬ L'.Owns o s := by
      rintro (rfl | ⟨m, hm, rfl⟩)
      · exact absurd (htable.home_lt o ho.1) (Nat.not_lt_of_le hs)
      · exact absurd (htable.home_lt m (by simp [hm])) (Nat.not_lt_of_le hs)
    obtain ⟨hh, hp⟩ := hframe s hfar
    exact ⟨hh.trans (h.disk.fresh s hs).1, hp.trans (h.disk.fresh s hs).2⟩
  · intro p hp ph hph
    by_cases hpo : p = o
    · subst hpo
      exact hmirror ph hph
    · replace hph : d.hdr (L'.home p) = some ph := hph
      rw [(hother p hp hpo _ (.inl rfl)).1, hadopt.home] at hph
      refine (h.disk.mirror p (hadopt.main hp) ph hph).imp_right ?_
      rintro ⟨m, hm, hk, hs⟩
      refine ⟨m, hm, (hadopt.sibling hpo).2 hk, hhdr _ ?_⟩
      rwa [hadopt.home]
  · intro p hp s hs w hw
    by_cases hpo : p = o
    · subst hpo
      exact hqueue hp s hs w hw
    · have hmain := L'.main_of_queue hp
      replace hw : d.pay s = some w := hw
      rw [(hother p hmain hpo s hs).2] at hw
      rw [hadopt.kind_of_main hmain] at hp
      exact hadopt.queuePage (h.disk.queue p hp s ((hadopt.owns hpo s).1 hs) w hw)
  · intro p e he
    refine (h.cache.kind p e he).imp_right fun ⟨hk, hq⟩ => ⟨?_, hadopt.queuePage hq⟩
    rw [hadopt.kind_of_ne (by simp [hk]), hk]
  · intro p w hp
    have hpp : pages p ≠ none := by simp [hp]
    obtain ⟨hpay, hclean⟩ := h.content p w hp
    refine ⟨hpay, fun hc => ?_⟩
    by_cases hpo : p = o
    · subst hpo
      obtain ⟨e, he, hde⟩ := hdirty w hp
      simp [hc e he] at hde
    · have hmain' : L'.Main p := by
        rw [Layout.Main, hadopt.kind_of_pages hpp]
        exact h.main_of_client hpp
      rw [hadopt.home, ← hclean hc]
      refine mirrorRead_congr h.disk (h.main_of_client hpp) (fun m hm => ⟨h.sibling_look hm, rfl⟩)
        fun s hs => hother p hmain' hpo s ((hadopt.owns hpo s).2 hs)
  · intro p hp
    rw [hadopt.kind_of_pages hp]
    exact h.client p hp
  · refine h.head.imp_right fun hk => ?_
    rw [hadopt.kind_of_ne (by simp [hk]), hk]
  · refine h.tail.imp_right fun hk => ?_
    rw [hadopt.kind_of_ne (by simp [hk]), hk]

end Rewrite

section Write

variable {crc : Words → UInt32} {b b' : Backend} {pages : Nat → Option (Option Words)}
  {L L' : Layout} {o : Nat}

@[simp] theorem applyAll_writePageRecord (d : Disk Words) (s : Nat) (ph : PageHeader) (w : Words) :
    d.applyAll (writePageRecord s ph w) =
      ⟨Function.update d.hdr s (some ph), Function.update d.pay s (some w)⟩ := rfl

theorem Adopts.refl (pages : Nat → Option (Option Words)) (look : Int → Nat) (o : Nat) (L : Layout) :
    Adopts pages look o L L := ⟨rfl, fun _ => .inl rfl⟩

theorem Inv.rewriteRecord (h : Inv crc b pages L) (ho : L.Main o) {s : Nat} (hs : L.Owns o s)
    {ph : PageHeader} {w : Words}
    (hmirror : s = L.home o → ph.mirrorPage = -1 ∨
      ∃ ph0, b.disk.hdr (L.home o) = some ph0 ∧ ph.mirrorPage = ph0.mirrorPage)
    (hqueue : L.kind o = .queue → QueuePage L o w)
    (hdirty : HeldDirty pages b o) :
    Inv crc { b with disk := b.disk.applyAll (writePageRecord s ph w) } pages L := by
  have hhdr : ∀ t, (b.disk.hdr t).isSome →
      (Function.update b.disk.hdr s (some ph) t).isSome := by
    intro t ht
    by_cases hts : t = s
    · simp [hts]
    · rwa [Function.update_of_ne hts]
  rw [applyAll_writePageRecord]
  refine h.rewrite (.refl _ _ o L) ho ?_ hhdr ?_ ?_ hdirty
  · intro t ht
    have hts : t ≠ s := by
      rintro rfl
      exact ht hs
    simp [hts]
  · intro ph1 hph1
    have hold : ∀ ph0, b.disk.hdr (L.home o) = some ph0 → ph1.mirrorPage = ph0.mirrorPage →
        ph1.mirrorPage = -1 ∨ ∃ m : Nat, ph1.mirrorPage = m ∧ L.kind m = .sibling o ∧
          (Function.update b.disk.hdr s (some ph) (L.home m)).isSome := by
      intro ph0 hph0 heq
      rw [heq]
      refine (h.disk.mirror o ho ph0 hph0).imp_right ?_
      rintro ⟨m, hm, hk, hsome⟩
      exact ⟨m, hm, hk, hhdr _ hsome⟩
    by_cases hso : s = L.home o
    · simp only [hso, Function.update_self, Option.some.injEq] at hph1
      subst hph1
      obtain hnone | ⟨ph0, hph0, heq⟩ := hmirror hso
      · exact .inl hnone
      · exact hold ph0 hph0 heq
    · simp only [Function.update_of_ne (Ne.symm hso)] at hph1
      exact hold ph1 hph1 rfl
  · intro hk t ht v hv
    by_cases hts : t = s
    · subst hts
      simp only [Function.update_self, Option.some.injEq] at hv
      exact hv ▸ hqueue hk
    · simp only [Function.update_of_ne hts] at hv
      exact h.disk.queue o hk t ht v hv

theorem Inv.linkSibling (h : Inv crc b pages L) (ho : L.Main o) {q : Nat} (hq : L.kind q = .client)
    (hfree : pages q = none) (hlook : indirLookup b q ≠ 0) (htwo : 2 ≤ q) (hqo : q ≠ o)
    {ph : PageHeader} {w : Words}
    (hqueue : L.kind o = .queue → QueuePage L o w)
    (hdirty : HeldDirty pages b o) :
    Inv crc { b with
        disk := b.disk.applyAll
          (writePageRecord (L.home q) ph w ++ [.link (L.home o) (q : Int)]) } pages
      ⟨Function.update L.kind q (.sibling o), L.home⟩ := by
  set L' : Layout := ⟨Function.update L.kind q (.sibling o), L.home⟩
  have hkind : ∀ x, x ≠ q → L'.kind x = L.kind x := fun x hx => Function.update_of_ne hx _ _
  have hkq : L'.kind q = .sibling o := Function.update_self ..
  have hadopt : Adopts pages (indirLookup b) o L L' := by
    refine ⟨rfl, fun x => ?_⟩
    by_cases hx : x = q
    · subst hx
      exact .inr ⟨hkq, hq, hfree, hlook, htwo⟩
    · exact .inl (hkind x hx)
  have hne : L.home o ≠ L.home q := by
    intro heq
    exact hqo (h.table.home_inj o q ho.1 (by simp [hq]) heq).symm
  have ho' : L'.Main o := by
    rw [Layout.Main, hkind o hqo.symm]
    exact ho
  have hhdr : ∀ t, (b.disk.hdr t).isSome → ((b.disk.applyAll
      (writePageRecord (L.home q) ph w ++ [.link (L.home o) (q : Int)])).hdr t).isSome := by
    intro t ht
    simp only [writePageRecord, List.cons_append, List.nil_append, Disk.applyAll_cons,
      Disk.applyAll_nil, Disk.apply]
    by_cases hto : t = L.home o
    · subst hto
      simp [hne, ht]
    · by_cases htq : t = L.home q
      · simp [htq, hne.symm]
      · simp [hto, htq, ht]
  refine h.rewrite hadopt ho' ?_ hhdr ?_ ?_ hdirty
  · intro t ht
    have hto : t ≠ L.home o := fun heq => ht (.inl heq)
    have htq : t ≠ L.home q := fun heq => ht (.inr ⟨q, hkq, heq⟩)
    simp [writePageRecord, Disk.apply, hto, htq]
  · intro ph1 hph1
    right
    have hsome : ((b.disk.applyAll (writePageRecord (L.home q) ph w ++
        [.link (L.home o) (q : Int)])).hdr (L.home q)).isSome := by
      simp [writePageRecord, Disk.apply, hne.symm]
    refine ⟨q, ?_, hkq, hsome⟩
    replace hph1 : (b.disk.applyAll (writePageRecord (L.home q) ph w ++
        [.link (L.home o) (q : Int)])).hdr (L.home o) = some ph1 := hph1
    simp only [writePageRecord, List.cons_append, List.nil_append, Disk.applyAll_cons,
      Disk.applyAll_nil, Disk.apply, Function.update_self, Function.update_of_ne hne,
      Option.map_eq_some_iff] at hph1
    obtain ⟨ph0, -, rfl⟩ := hph1
    rfl
  · intro hk t ht v hv
    rw [hkind o hqo.symm] at hk
    simp only [writePageRecord, List.cons_append, List.nil_append, Disk.applyAll_cons,
      Disk.applyAll_nil, Disk.apply] at hv
    apply hadopt.queuePage
    by_cases htq : t = L.home q
    · rw [htq, Function.update_self, Option.some.injEq] at hv
      exact hv ▸ hqueue hk
    · rw [Function.update_of_ne htq] at hv
      refine h.disk.queue o hk t ?_ v hv
      obtain rfl | ⟨m, hm, rfl⟩ := ht
      · exact .inl rfl
      · have hmq : m ≠ q := by
          rintro rfl
          exact htq rfl
        exact .inr ⟨m, by rwa [hkind m hmq] at hm, rfl⟩

end Write

/-- Page `o` was rewritten by `mirror_write`. -/
structure Mirrored (crc : Words → UInt32) (pages : Nat → Option (Option Words)) (b b' : Backend)
    (L L' : Layout) (o : Nat) : Prop where
  inv : Inv crc b' pages L'
  sound : QueueSound crc b'
  pageSize : b'.pageSize = b.pageSize
  totalPages : b.totalPages ≤ b'.totalPages
  cache : ∀ p, pages p ≠ none → b'.cache p = b.cache p
  stays : ∀ p, (b.cache p).isSome → (b'.cache p).isSome
  other : ∀ p, pages p ≠ none → p ≠ o → ∀ s, L'.Owns p s →
    L.Owns p s ∧ b'.disk.hdr s = b.disk.hdr s
  home : ∀ p, L.kind p ≠ .none → L'.home p = L.home p
  kind : ∀ p, L.kind p ≠ .none → L'.kind p = L.kind p ∨ L.kind p = .client ∧ pages p = none
  records : ∀ p, L.Main p → p ≠ o → L'.kind p = L.kind p → ∀ s, L.Owns p s →
    b'.disk.hdr s = b.disk.hdr s ∧ b'.disk.pay s = b.disk.pay s
  frame : ∀ p, L'.Main p → p ≠ o → ∀ s, L'.Owns p s →
    b'.disk.hdr s = b.disk.hdr s ∧ b'.disk.pay s = b.disk.pay s
  present : ∀ s, (b.disk.hdr s).isSome → (b'.disk.hdr s).isSome

section MirrorWrite

variable {crc : Words → UInt32} {b b' : Backend} {pages : Nat → Option (Option Words)}
  {L L' : Layout} {o : Nat}

theorem Inv.sound_rewrite (h : Inv crc b pages L) (hs : QueueSound crc b) {d : Disk Words}
    (ho : L.kind o = .queue → (b.cache o).isSome)
    (hframe : ∀ x, L.kind x = .queue → x ≠ o → ∀ s, L.Owns x s →
      d.hdr s = b.disk.hdr s ∧ d.pay s = b.disk.pay s) :
    QueueSound crc { b with disk := d } := by
  refine h.sound_congr hs rfl rfl (Nat.le_refl _) (fun x hx => ?_) fun _ _ hq => hq
  by_cases hxo : x = o
  · subst hxo
    obtain ⟨e, he⟩ := Option.isSome_iff_exists.1 (ho hx)
    rw [peek_cached he]
    exact peek_cached he
  · exact h.peek_congr (L.main_of_queue hx) rfl rfl rfl (fun _ _ => rfl) (hframe x hx hxo)

theorem Inv.mirroredRecord (h : Inv crc b pages L) (hs : QueueSound crc b) (ho : L.Main o)
    (hcached : L.kind o = .queue → (b.cache o).isSome)
    (hdirty : HeldDirty pages b o)
    {s : Nat} (hown : L.Owns o s) {ph : PageHeader} {w : Words}
    (hmirror : s = L.home o → ph.mirrorPage = -1 ∨
      ∃ ph0, b.disk.hdr (L.home o) = some ph0 ∧ ph.mirrorPage = ph0.mirrorPage)
    (hqueue : L.kind o = .queue → QueuePage L o w) :
    Mirrored crc pages b { b with disk := b.disk.applyAll (writePageRecord s ph w) } L L o := by
  have hother : ∀ p, L.Main p → p ≠ o → ∀ t, L.Owns p t → t ≠ s :=
    fun p hp hpo t ht => h.table.owns_ne hp ho hpo ht hown
  have hframe : ∀ p, L.Main p → p ≠ o → ∀ t, L.Owns p t →
      (b.disk.applyAll (writePageRecord s ph w)).hdr t = b.disk.hdr t ∧
        (b.disk.applyAll (writePageRecord s ph w)).pay t = b.disk.pay t := by
    intro p hp hpo t ht
    have hts := hother p hp hpo t ht
    simp [hts]
  refine ⟨h.rewriteRecord ho hown hmirror hqueue hdirty, ?_, rfl, Nat.le_refl _, fun _ _ => rfl,
    fun _ hx => hx, ?_, fun _ _ => rfl, fun _ _ => .inl rfl, fun p hp hpo _ => hframe p hp hpo, hframe,
    fun _ ht => Disk.applyAll_present _ ht⟩
  · refine h.sound_rewrite hs hcached fun x hx hxo t ht => ?_
    have hts := hother x (L.main_of_queue hx) hxo t ht
    simp [hts]
  · intro p hp hpo t ht
    have hts := hother p (h.main_of_client hp) hpo t ht
    simp [hts, ht]

theorem Allocated.mirrored {q : Nat} (h : Inv crc b pages L)
    (ha : Allocated crc pages b b' L L' q) (ho : L.Main o)
    (hclient : L.kind o = .client → pages o ≠ none)
    (hcached : L.kind o = .queue → (b.cache o).isSome)
    (hdirty : HeldDirty pages b o)
    {ph : PageHeader} {w : Words} (hqueue : L'.kind o = .queue → QueuePage L' o w) :
    Mirrored crc pages b { b' with
        disk := b'.disk.applyAll
          (writePageRecord (L'.home q) ph w ++ [.link (L'.home o) (q : Int)]) }
      L ⟨Function.update L'.kind q (.sibling o), L'.home⟩ o := by
  obtain ⟨hok, hoh⟩ := ha.ext.used o ho.1
  have ho' : L'.Main o := by
    rw [Layout.Main, hok]
    exact ho
  have hqo : q ≠ o := by
    rintro rfl
    exact hclient (hok ▸ ha.kind) ha.free
  have hdirty' : HeldDirty pages b' o := by
    intro v hp
    rw [ha.kept.cache o (by simp [hp])]
    exact hdirty v hp
  -- a record of another page is neither that of the sibling nor the home of `o`
  have hother : ∀ p, L'.Main p → p ≠ o → p ≠ q → ∀ t, L'.Owns p t →
      t ≠ L'.home o ∧ t ≠ L'.home q := by
    intro p hp hpo hpq t ht
    have hqm : L'.Main q := by simp [Layout.Main, ha.kind]
    exact ⟨ha.inv.table.owns_ne hp ho' hpo ht (.inl rfl),
      ha.inv.table.owns_ne hp hqm hpq ht (.inl rfl)⟩
  -- only page `o` gets a new record
  have howns : ∀ p t, p ≠ o → (⟨Function.update L'.kind q (.sibling o), L'.home⟩ : Layout).Owns p t →
      L'.Owns p t := by
    rintro p t hpo (rfl | ⟨m, hm, rfl⟩)
    · exact .inl rfl
    · have hmq : m ≠ q := by
        rintro rfl
        simp only [Function.update_self, Kind.sibling.injEq] at hm
        exact hpo hm.symm
      exact .inr ⟨m, by simpa [hmq] using hm, rfl⟩
  refine ⟨ha.inv.linkSibling ho' ha.kind ha.free ha.entry ha.two_le hqo hqueue hdirty', ?_,
    ha.kept.pageSize, ha.kept.totalPages, ha.kept.cache, ha.kept.stays, ?_,
    fun p hp => (ha.ext.used p hp).2, fun p hp => ?_, ?_, ?_,
    fun _ ht => Disk.applyAll_present _ (ha.kept.disk ▸ ht)⟩
  · refine ha.inv.sound_rewrite ha.sound (o := o) (fun hk => ?_) fun x hx hxo t ht => ?_
    · exact ha.kept.stays o (hcached (hok ▸ hk))
    · have hxq : x ≠ q := by
        rintro rfl
        simp [ha.kind] at hx
      obtain ⟨h1, h2⟩ := hother x (L'.main_of_queue hx) hxo hxq t ht
      simp [writePageRecord, Disk.apply, h1, h2]
  · intro p hp hpo t ht
    have hpq : p ≠ q := by
      rintro rfl
      exact hp ha.free
    have ht' := howns p t hpo ht
    obtain ⟨h1, h2⟩ := hother p (ha.inv.main_of_client hp) hpo hpq t ht'
    refine ⟨(ha.ext.owns_iff (h.main_of_client hp).1 t).1 ht', ?_⟩
    rw [← ha.kept.disk]
    simp [writePageRecord, Disk.apply, h1, h2]
  · have hk := (ha.ext.used p hp).1
    by_cases hpq : p = q
    · subst hpq
      exact .inr ⟨hk ▸ ha.kind, ha.free⟩
    · exact .inl ((Function.update_of_ne hpq ..).trans hk)
  · intro p hp hpo hk t ht
    have hpq : p ≠ q := by
      rintro rfl
      exact hp.2 o (hk ▸ Function.update_self ..)
    have hp' : L'.Main p := by
      rw [Layout.Main, (ha.ext.used p hp.1).1]
      exact hp
    obtain ⟨h1, h2⟩ := hother p hp' hpo hpq t ((ha.ext.owns_iff hp.1 t).2 ht)
    rw [← ha.kept.disk]
    simp [writePageRecord, Disk.apply, h1, h2]
  · intro p hp hpo t ht
    have hpq : p ≠ q := by
      rintro rfl
      exact hp.2 o (Function.update_self ..)
    have hk : Function.update L'.kind q (.sibling o) p = L'.kind p := Function.update_of_ne hpq ..
    have hp' : L'.Main p := by
      rw [Layout.Main, ← hk]
      exact hp
    obtain ⟨h1, h2⟩ := hother p hp' hpo hpq t (howns p t hpo ht)
    rw [← ha.kept.disk]
    simp [writePageRecord, Disk.apply, h1, h2]

/-! ### Reading after a write -/

theorem mirrorRead_first {look : Int → Nat} {d : Disk Words} {off flags : Nat} {w : Words} :
    mirrorRead crc look (d.applyAll (writePageRecord off ⟨flags, crc w, 1, -1⟩ w)) off = .ok w := by
  simp [mirrorRead, readSingle]

theorem mirrorRead_linked {look : Int → Nat} {d : Disk Words} {off sib flags q : Nat} {back : Int}
    {w : Words} {ph : PageHeader} (hph : d.hdr off = some ph) (hgen : ph.generation + 1 < 2 ^ 32)
    (hne : off ≠ sib) (hq : look q = sib) (h0 : sib ≠ 0) :
    mirrorRead crc look (d.applyAll
      (writePageRecord sib ⟨flags, crc w, succ32 ph.generation, back⟩ w ++
        [.link off (q : Int)])) off = .ok w := by
  have hneg : (q : Int) ≠ -1 := by omega
  simp [mirrorRead, writePageRecord, Disk.apply, hph, hne, hne.symm, hneg, hq, h0, readPair,
    checkedPayload, succ32_of_lt hgen]

theorem mirrorRead_alternate {look : Int → Nat} {d : Disk Words} {off flags m : Nat} {w : Words}
    {ph phSib : PageHeader} (hph : d.hdr off = some ph) (hm : ph.mirrorPage = m)
    (hsib : d.hdr (look m) = some phSib) (hgen : ph.generation + 1 < 2 ^ 32)
    (hgen' : phSib.generation + 1 < 2 ^ 32) (hne : off ≠ look m) (h0 : look m ≠ 0) :
    mirrorRead crc look (d.applyAll (alternateWrites crc off (look m) ph phSib flags w)) off =
      .ok w := by
  have hneg : (m : Int) ≠ -1 := by omega
  by_cases hle : ph.generation ≤ phSib.generation
  · have hnew : ¬ phSib.generation > phSib.generation + 1 := by omega
    have hmax : ¬ ph.generation > phSib.generation := by omega
    simp [alternateWrites, mirrorRead, hle, hmax, hm, hneg, h0, hne.symm, hsib, readPair,
      checkedPayload, succ32_of_lt hgen', hnew]
  · have hmax : ph.generation > phSib.generation := by omega
    simp [alternateWrites, mirrorRead, hle, hmax, hm, hneg, h0, hne, hph, readPair,
      checkedPayload, succ32_of_lt hgen]

/-! ### The call -/

theorem currentHeader_some {d : Disk Words} {off : Nat}
    (hgen : (currentHeader d off).generation ≠ 0) :
    d.hdr off = some (currentHeader d off) := by
  rcases hd : d.hdr off with _ | ph
  · simp [currentHeader, hd] at hgen
  · simp [currentHeader, hd]

section Cases

variable {p off flags : Nat} {payload : Backend → Words} {ph : PageHeader}
  (hoff : physicalOffset b p = off) (hph : currentHeader b.disk off = ph)

include hoff hph

theorem mirrorWrite_first (hgen : ph.generation = 0) :
    mirrorWrite crc b p payload flags = (true, { b with
      disk := b.disk.applyAll
        (writePageRecord off ⟨flags, crc (payload b), 1, -1⟩ (payload b)) }) := by
  simp [mirrorWrite, hoff, hph, hgen, mirrorWrites]

theorem mirrorWrite_second {q : Nat} (hgen : ph.generation ≠ 0) (hsingle : ph.mirrorPage = -1)
    (halloc : storageAllocate crc b = (some q, b')) (hdisk : b'.disk = b.disk)
    (hlook : indirLookup b' q ≠ 0) :
    mirrorWrite crc b p payload flags = (true, { b' with
      disk := b'.disk.applyAll (writePageRecord (indirLookup b' q)
        ⟨flags, crc (payload b), succ32 ph.generation, toInt32 p⟩ (payload b') ++
          [.link off (toInt32 q)]) }) := by
  have hneg : ¬ (q : Int) < 0 := by omega
  simp only [mirrorWrite, hoff, hph, if_pos (And.intro hgen hsingle), halloc, mirrorWrites, hdisk,
    if_neg hgen, if_pos hsingle, if_neg hneg, if_neg hlook]

theorem mirrorWrite_alternate {m : Nat} {phSib : PageHeader} (hgen : ph.generation ≠ 0)
    (hm : ph.mirrorPage = m) (hlook : indirLookup b m ≠ 0)
    (hsib : b.disk.hdr (indirLookup b m) = some phSib) :
    mirrorWrite crc b p payload flags = (true, { b with
      disk := b.disk.applyAll (alternateWrites (fun _ => crc (payload b)) off (indirLookup b m)
        ph phSib flags (payload b)) }) := by
  have hneg : (m : Int) ≠ -1 := by omega
  have hpair : ¬ (ph.generation ≠ 0 ∧ ph.mirrorPage = -1) := by
    rw [hm]
    exact fun hh => hneg hh.2
  have hws : mirrorWrites (fun _ => crc (payload b)) (indirLookup b) b.disk p off flags (payload b) (-1) =
      some (alternateWrites (fun _ => crc (payload b)) off (indirLookup b m) ph phSib flags
        (payload b)) := by
    simp only [mirrorWrites, hph, if_neg hgen, hm, if_neg hneg, if_neg hlook, hsib]
  simp only [mirrorWrite, hoff, hph, if_neg hpair, hws]

end Cases

/-- `mirror_write` takes a sibling for the page at this offset: there is one copy so far. -/
def TakesSibling (d : Disk Words) (off : Nat) : Prop :=
  (currentHeader d off).generation ≠ 0 ∧ (currentHeader d off).mirrorPage = -1

instance (d : Disk Words) (off : Nat) : Decidable (TakesSibling d off) := inferInstanceAs (Decidable (_ ∧ _))

/-- The next write of the page at this offset goes to its own record: it was never written, or its sibling
is at least as new. -/
def WritesHome (b : Backend) (off : Nat) : Prop :=
  (currentHeader b.disk off).generation = 0 ∨ (currentHeader b.disk off).mirrorPage ≠ -1 ∧
    (currentHeader b.disk off).generation ≤
      (currentHeader b.disk (indirLookup b (currentHeader b.disk off).mirrorPage)).generation

instance (b : Backend) (off : Nat) : Decidable (WritesHome b off) := inferInstanceAs (Decidable (_ ∨ _ ∧ _))

theorem WritesHome.not_takesSibling {off : Nat} (h : WritesHome b off) : ¬ TakesSibling b.disk off := by
  rintro ⟨hgen, hsingle⟩
  exact h.elim hgen fun h => h.1 hsingle

theorem Inv.mirrorWrite_inPlace (h : Inv crc b pages L) {p : Nat} (ho : L.Main o)
    (hoff : physicalOffset b p = L.home o) (hsib : ¬ TakesSibling b.disk (L.home o)) (payload : Backend → Words)
    (flags : Nat) :
    ∃ s ph, Storage.mirrorWrite crc b p payload flags =
        (true, { b with disk := b.disk.applyAll (writePageRecord s ph (payload b)) }) ∧
      L.Owns o s ∧
      (s = L.home o → ph.mirrorPage = -1 ∨
        ∃ ph0, b.disk.hdr (L.home o) = some ph0 ∧ ph.mirrorPage = ph0.mirrorPage) ∧
      (WritesHome b (L.home o) → s = L.home o) ∧
      ((∀ s, L.Owns o s → ∀ ph, b.disk.hdr s = some ph → ph.generation + 1 < 2 ^ 32) →
        mirrorRead crc (indirLookup b) (b.disk.applyAll (writePageRecord s ph (payload b))) (L.home o) =
          .ok (payload b)) := by
  by_cases hgen : (currentHeader b.disk (L.home o)).generation = 0
  · exact ⟨L.home o, ⟨flags, crc (payload b), 1, -1⟩, mirrorWrite_first hoff rfl hgen, .inl rfl, fun _ => .inl rfl,
      fun _ => rfl, fun _ => mirrorRead_first⟩
  have hph := currentHeader_some hgen
  set ph := currentHeader b.disk (L.home o) with hphdef
  have hpaired : ph.mirrorPage ≠ -1 := fun hm => hsib ⟨hgen, hm⟩
  obtain ⟨m, hm, hk, hsome⟩ := (h.disk.mirror o ho ph hph).resolve_left hpaired
  obtain ⟨phSib, hsib⟩ := Option.isSome_iff_exists.1 hsome
  have hlook : indirLookup b m = L.home m := h.sibling_look hk
  have hlook0 : indirLookup b m ≠ 0 := (h.table.sibling_live m o hk).1
  have hmo : L.home o ≠ L.home m := by
    intro heq
    have hmm := h.table.home_inj o m ho.1 (by simp [hk]) heq
    exact absurd (hmm ▸ hk) (ho.2 o)
  have hown : L.Owns o (L.home m) := .inr ⟨m, hk, rfl⟩
  have heq : Storage.mirrorWrite crc b p payload flags = _ :=
    mirrorWrite_alternate hoff hphdef.symm hgen hm hlook0 (by rw [hlook, hsib])
  have hread : (∀ s, L.Owns o s → ∀ ph, b.disk.hdr s = some ph → ph.generation + 1 < 2 ^ 32) →
      mirrorRead crc (indirLookup b) (b.disk.applyAll (alternateWrites crc (L.home o)
        (indirLookup b m) ph phSib flags (payload b))) (L.home o) = .ok (payload b) :=
    fun hbound => mirrorRead_alternate hph hm (by rw [hlook, hsib]) (hbound _ (.inl rfl) ph hph)
      (hbound _ hown phSib hsib) (by rwa [hlook]) hlook0
  rw [alternateWrites, hlook] at heq hread
  by_cases hle : ph.generation ≤ phSib.generation
  · simp only [hle, if_true] at heq hread
    exact ⟨L.home o, _, heq, .inl rfl, fun _ => .inr ⟨ph, hph, rfl⟩, fun _ => rfl, hread⟩
  · simp only [hle, if_false] at heq hread
    refine ⟨L.home m, _, heq, hown, fun heq => absurd heq.symm hmo, fun hhome => ?_, hread⟩
    have hcur : currentHeader b.disk (L.home m) = phSib := by simp [currentHeader, hsib]
    refine absurd ?_ hle
    obtain h0 | ⟨-, hle⟩ := hhome
    · exact absurd h0 hgen
    · rwa [← hphdef, hm, hlook, hcur] at hle

/-- What a write did to the backend: it wrote to the file, after page `q` was allocated in case the page
takes a sibling. -/
def WrittenBy (b b' : Backend) (L L' : Layout) (b1 : Backend) (L1 : Layout) (o q : Nat) : Prop :=
  ∃ d, if TakesSibling b.disk (L.home o) then
      b' = { b1 with disk := d } ∧ L' = ⟨Function.update L1.kind q (.sibling o), L1.home⟩
    else b' = { b with disk := d } ∧ L' = L

section

variable (h : Inv crc b pages L) (hs : QueueSound crc b) {p flags : Nat} {payload : Backend → Words}
  (ho : L.Main o) (hoff : physicalOffset b p = L.home o) (hclient : L.kind o = .client → pages o ≠ none)
  (hcached : L.kind o = .queue → (b.cache o).isSome) (hdirty : HeldDirty pages b o)
  (hqueue : L.kind o = .queue → ∀ b1 L1, Inv crc b1 pages L1 → Kept pages b b1 →
    L1.kind o = .queue → QueuePage L1 o (payload b1))
  (hmax : (Storage.mirrorWrite crc b p payload flags).2.totalPages ≤ 2 ^ 31)
include h hs ho hoff hclient hcached hdirty hqueue hmax

/-- `mirror_write` succeeds and writes only records of the page whose home it is called for. If the
buffer did not change on the way, the page then reads as the buffer. -/
theorem Inv.mirrorWrite_from {q : Nat} {b1 : Backend} {L1 : Layout}
    (halloc : Storage.storageAllocate crc b = (some q, b1)) (ha : Allocated crc pages b b1 L L1 q) :
    ∃ b' L', Storage.mirrorWrite crc b p payload flags = (true, b') ∧
      Mirrored crc pages b b' L L' o ∧ WrittenBy b b' L L' b1 L1 o q ∧
      ((∀ b1, Kept pages b b1 → payload b1 = payload b) →
        (∀ s, L.Owns o s → ∀ ph, b.disk.hdr s = some ph → ph.generation + 1 < 2 ^ 32) →
        mirrorRead crc (indirLookup b') b'.disk (L'.home o) = .ok (payload b)) := by
  have hq0 : L.kind o = .queue → QueuePage L o (payload b) :=
    fun hk => hqueue hk b L h (.refl _ _) hk
  by_cases hsib : TakesSibling b.disk (L.home o)
  · obtain ⟨hgen, hsingle⟩ := hsib
    have hph := currentHeader_some hgen
    set ph := currentHeader b.disk (L.home o) with hphdef
    have hqlt : q < b1.totalPages := by
      by_contra hle
      have := ha.inv.table.ahead q (Nat.le_of_not_lt hle) (by simp [ha.kind])
      simp [ha.kind] at this
    obtain ⟨hlook, -⟩ := ha.inv.table.entry q ha.entry
    have heq : Storage.mirrorWrite crc b p payload flags = _ :=
      mirrorWrite_second hoff hphdef.symm hgen hsingle halloc ha.kept.disk ha.entry
    have hsmall : toInt32 q = q := by
      rw [heq] at hmax
      exact toInt32_of_lt (by omega) (by simp only at hmax; omega)
    have hhome : L1.home o = L.home o := (ha.ext.used o ho.1).2
    rw [hsmall, ← hhome, hlook] at heq
    refine ⟨_, _, heq, ha.mirrored h ho hclient hcached hdirty
      (fun hk => hqueue ((ha.ext.used o ho.1).1 ▸ hk) b1 L1 ha.inv ha.kept hk),
      ⟨_, by rw [if_pos ⟨hgen, hsingle⟩]; exact ⟨rfl, rfl⟩⟩, ?_⟩
    intro hsame hbound
    rw [hsame b1 ha.kept]
    have hqo : L1.home o ≠ L1.home q := by
      intro heq
      obtain ⟨hok, -⟩ := ha.ext.used o ho.1
      have hoq := ha.inv.table.home_inj o q (by rw [hok]; exact ho.1) (by simp [ha.kind]) heq
      subst hoq
      exact hclient (hok ▸ ha.kind) ha.free
    have hph' : b1.disk.hdr (L1.home o) = some ph := by rw [ha.kept.disk, hhome, hph]
    exact mirrorRead_linked hph' (hbound _ (.inl rfl) ph hph) hqo hlook (hlook ▸ ha.entry)
  · obtain ⟨s, ph, heq, hown, hmirror, -, hread⟩ := h.mirrorWrite_inPlace ho hoff hsib payload flags
    exact ⟨_, L, heq, h.mirroredRecord hs ho hcached hdirty hown hmirror hq0,
      ⟨_, by rw [if_neg hsib]; exact ⟨rfl, rfl⟩⟩, fun _ hbound => hread hbound⟩

theorem Inv.mirrorWrite :
    ∃ b' L', Storage.mirrorWrite crc b p payload flags = (true, b') ∧
      Mirrored crc pages b b' L L' o ∧
      ((∀ b1, Kept pages b b1 → payload b1 = payload b) →
        (∀ s, L.Owns o s → ∀ ph, b.disk.hdr s = some ph → ph.generation + 1 < 2 ^ 32) →
        mirrorRead crc (indirLookup b') b'.disk (L'.home o) = .ok (payload b)) := by
  obtain ⟨q, b1, L1, halloc, ha⟩ := h.storageAllocate hs
  obtain ⟨b', L', heq, hm, -, hread⟩ := h.mirrorWrite_from hs ho hoff hclient hcached hdirty hqueue hmax
    halloc ha
  exact ⟨b', L', heq, hm, hread⟩

end

end MirrorWrite

end Storage
end SphereVFS
