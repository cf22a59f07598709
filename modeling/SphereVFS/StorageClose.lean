import SphereVFS.StorageMount
import SphereVFS.StorageSteady
import Mathlib.Data.Finset.Card

/-!
# SphereVFS.StorageClose

The file that `storage_close` leaves behind.

Overflow pages are written like any other page, to their own record and to that of a sibling in turns, but
`indir_init` reads their own records. So the table comes back if the last flush wrote every overflow page
to its own record. Such a flush takes no sibling for an overflow page, and the table does not change while
it is written.
-/

namespace SphereVFS
namespace Storage

open Mirror

section Close

variable {crc : Words → UInt32} {b : Backend} {pages : Nat → Option (Option Words)} {L : Layout} {d : Disk Words}
  {i : Nat}

def TableHome (b : Backend) : Prop :=
  ∀ i < b.overflowCount, WritesHome b (b.entries (overflowLogical b.pageSize i))

instance (b : Backend) : Decidable (TableHome b) :=
  inferInstanceAs (Decidable (∀ i < b.overflowCount, _))

theorem Inv.overflow_page (h : Inv crc b pages L) (hi : i < b.overflowCount) :
    L.kind (overflowLogical b.pageSize i) = .table ∧
      b.entries (overflowLogical b.pageSize i) = L.home (overflowLogical b.pageSize i) := by
  have hk : L.kind (overflowLogical b.pageSize i) = .table := (h.table.table_iff _).2 ⟨i, hi, rfl⟩
  have hlook := (h.table.entry _ (h.table.table_live _ hk)).1
  have hrange : overflowLogical b.pageSize i < totalEntries b := h.table.in_range (by simp [hk])
  rw [indirLookup_nat, if_pos hrange] at hlook
  exact ⟨hk, hlook⟩

theorem TableHome.ready (h : Inv crc b pages L) (hhome : TableHome b) : TableReady b L := by
  intro p hp
  obtain ⟨i, hi, rfl⟩ := (h.table.table_iff p).1 hp
  rw [← (h.overflow_page hi).2]
  exact hhome i hi

theorem overflowLogical_inj (hsize : 120 ≤ b.pageSize) {j : Nat}
    (h : overflowLogical b.pageSize i = overflowLogical b.pageSize j) : i = j := by
  have hepo := entriesPerOverflow_large hsize
  obtain hlt | rfl | hlt := Nat.lt_trichotomy i j
  · have : overflowLogical b.pageSize i + _ ≤ _ := overflowLogical_lt hlt
    omega
  · rfl
  · have : overflowLogical b.pageSize j + _ ≤ _ := overflowLogical_lt hlt
    omega

theorem Inv.overflow_le_tail (h : Inv crc b pages L) : b.overflowCount ≤ b.physicalTail := by
  have hmaps : ∀ i ∈ Finset.range b.overflowCount,
      L.home (overflowLogical b.pageSize i) ∈ Finset.range b.physicalTail := by
    intro i hi
    obtain ⟨hk, -⟩ := h.overflow_page (Finset.mem_range.1 hi)
    exact Finset.mem_range.2 (h.table.home_lt _ (by simp [hk]))
  have hinj : ∀ i ∈ Finset.range b.overflowCount, ∀ j ∈ Finset.range b.overflowCount,
      L.home (overflowLogical b.pageSize i) = L.home (overflowLogical b.pageSize j) → i = j := by
    intro i hi j hj heq
    obtain ⟨hki, -⟩ := h.overflow_page (Finset.mem_range.1 hi)
    obtain ⟨hkj, -⟩ := h.overflow_page (Finset.mem_range.1 hj)
    exact overflowLogical_inj h.table.size (h.table.home_inj _ _ (by simp [hki]) (by simp [hkj]) heq)
  simpa using Finset.card_le_card_of_injOn _ hmaps hinj

/-! ## The overflow pages -/

/-- The file while the overflow pages of `b` are written: the first `i` of them are in their own records, the
others will be, and nothing else changed. -/
structure Storing (crc : Words → UInt32) (pages : Nat → Option (Option Words)) (b : Backend) (L : Layout) (i : Nat)
    (d : Disk Words) : Prop where
  inv : Inv crc { b with disk := d } pages L
  done : ∀ j < i, j < b.overflowCount → (d.hdr (b.entries (overflowLogical b.pageSize j))).isSome ∧
    d.pay (b.entries (overflowLogical b.pageSize j)) = some (overflowImage j b)
  next : ∀ p, L.kind p = .table → (∀ j < i, p ≠ overflowLogical b.pageSize j) →
    WritesHome { b with disk := d } (L.home p)
  others : ∀ p, L.Main p → L.kind p ≠ .table → ∀ s, L.Owns p s →
    d.hdr s = b.disk.hdr s ∧ d.pay s = b.disk.pay s

theorem Storing.write (h : Storing crc pages b L i d) (hi : i < b.overflowCount) :
    ∃ d', (mirrorWrite crc { b with disk := d } (overflowLogical b.pageSize i) (overflowImage i)
        Priority.indir.flags).2 = { b with disk := d' } ∧ Storing crc pages b L (i + 1) d' := by
  have hinv := h.inv
  obtain ⟨hk, hentry⟩ := hinv.overflow_page (i := i) hi
  have hk : L.kind (overflowLogical b.pageSize i) = .table := hk
  have hentry : b.entries (overflowLogical b.pageSize i) = L.home (overflowLogical b.pageSize i) := hentry
  have hmain : L.Main (overflowLogical b.pageSize i) := by simp [Layout.Main, hk]
  have hnew : ∀ j < i, overflowLogical b.pageSize i ≠ overflowLogical b.pageSize j := by
    intro j hj heq
    have := overflowLogical_inj hinv.table.size heq
    omega
  have hhome := h.next _ hk hnew
  obtain ⟨s, ph, heq, -, hmirror, hs, -⟩ := hinv.mirrorWrite_inPlace hmain
    (hinv.offset (hinv.table.table_live _ hk)) hhome.not_takesSibling (overflowImage i) Priority.indir.flags
  obtain rfl := hs hhome
  have hpages : pages (overflowLogical b.pageSize i) = none := by
    by_contra hp
    simp [(hinv.client _ hp).1] at hk
  set d' := d.applyAll (writePageRecord (L.home (overflowLogical b.pageSize i)) ph (overflowImage i b)) with hd'
  -- the records of other pages
  have hframe : ∀ p, L.Main p → p ≠ overflowLogical b.pageSize i → ∀ s, L.Owns p s →
      d'.hdr s = d.hdr s ∧ d'.pay s = d.pay s := by
    intro p hp hpi s hs
    have hne := hinv.table.owns_ne hp hmain hpi hs (.inl rfl)
    simp [hd', hne]
  refine ⟨d', by rw [heq]; rfl, ?_, fun j hj hjc => ?_, fun p hp hpj => ?_, fun p hp hpk s hs => ?_⟩
  · exact hinv.rewriteRecord hmain (.inl rfl) hmirror (by simp [hk]) fun v hv => by simp [hpages] at hv
  · by_cases hji : j = i
    · subst hji
      rw [hentry]
      simp [hd']
    · obtain ⟨hkj, hej⟩ := hinv.overflow_page (i := j) hjc
      have hej : b.entries (overflowLogical b.pageSize j) = L.home (overflowLogical b.pageSize j) := hej
      have hne : overflowLogical b.pageSize j ≠ overflowLogical b.pageSize i :=
        fun heq => hji (overflowLogical_inj hinv.table.size heq)
      obtain ⟨hhdr, hpay⟩ := hframe _ (by simp [Layout.Main, hkj]) hne _ (.inl rfl)
      rw [hej, hhdr, hpay, ← hej]
      exact h.done j (by omega) hjc
  · have hmainp : L.Main p := by simp [Layout.Main, hp]
    have hne : p ≠ overflowLogical b.pageSize i := hpj i (Nat.lt_succ_self i)
    exact (h.next p hp fun j hj => hpj j (Nat.lt_succ_of_lt hj)).frame hinv hmainp
      (fun s hs => (hframe p hmainp hne s hs).1) fun _ _ => rfl
  · have hne : p ≠ overflowLogical b.pageSize i := by
      rintro rfl
      exact hpk hk
    obtain ⟨hhdr, hpay⟩ := hframe p hp hne s hs
    obtain ⟨hhdr0, hpay0⟩ := h.others p hp hpk s hs
    exact ⟨hhdr.trans hhdr0, hpay.trans hpay0⟩

theorem Storing.writeAll (n : Nat) : ∀ {i : Nat} {d : Disk Words}, Storing crc pages b L i d →
    i ≤ b.overflowCount → b.overflowCount ≤ n + i →
    ∃ d', flushOverflow crc n i { b with disk := d } = { b with disk := d' } ∧
      Storing crc pages b L b.overflowCount d' := by
  induction n with
  | zero =>
    intro i d h hle hn
    obtain rfl : i = b.overflowCount := by omega
    exact ⟨d, rfl, h⟩
  | succ n ih =>
    intro i d h hle hn
    rw [flushOverflow]
    by_cases hi : i < b.overflowCount
    · obtain ⟨d1, heq, h1⟩ := h.write hi
      obtain ⟨d2, heq2, h2⟩ := ih h1 hi (by omega)
      refine ⟨d2, ?_, h2⟩
      rw [if_pos (show i < ({ b with disk := d } : Backend).overflowCount from hi)]
      exact (congrArg _ heq).trans heq2
    · obtain rfl : i = b.overflowCount := by omega
      rw [if_neg (show ¬ b.overflowCount < ({ b with disk := d } : Backend).overflowCount from hi)]
      exact ⟨d, rfl, h⟩

/-! ## The whole flush -/

/-- What the end of `storage_flush(-1)` does once the cache is flushed: the table is in the file. -/
structure TableFlushed (crc : Words → UInt32) (pages : Nat → Option (Option Words)) (b : Backend) (L : Layout)
    (d : Disk Words) : Prop where
  stored : TableStored crc b d
  inv : Inv crc { b with disk := d } pages L
  others : ∀ p, L.Main p → L.kind p ≠ .table → p ≠ 0 → ∀ s, L.Owns p s →
    d.hdr s = b.disk.hdr s ∧ d.pay s = b.disk.pay s

theorem Inv.tableFlushed (h : Inv crc b pages L) (hready : TableReady b L) (hheader : (b.disk.hdr 0).isSome)
    {n : Nat} (hn : b.overflowCount ≤ n) :
    ∃ d, { Storage.flushOverflow crc n 0 b with
        disk := (Storage.flushOverflow crc n 0 b).disk.applyAll (headerWrites crc (Storage.flushOverflow crc n 0 b)) } =
        { b with disk := d } ∧ TableFlushed crc pages b L d := by
  have hstart : Storing crc pages b L 0 b.disk :=
    ⟨h, fun j hj => absurd hj (Nat.not_lt_zero j), fun p hp _ => hready p hp, fun _ _ _ _ _ => ⟨rfl, rfl⟩⟩
  obtain ⟨d, heq, hd⟩ := hstart.writeAll n (Nat.zero_le _) hn
  have heq : Storage.flushOverflow crc n 0 b = { b with disk := d } := heq
  have hmain0 : L.Main 0 := by simp [Layout.Main, h.table.header.1]
  have howns0 : L.Owns 0 0 := .inl h.table.header.2.1.symm
  obtain ⟨ph, hph⟩ : ∃ ph, d.hdr 0 = some ph := by
    rw [(hd.others 0 hmain0 (by simp [h.table.header.1]) 0 howns0).1]
    exact Option.isSome_iff_exists.1 hheader
  have hws : headerWrites crc { b with disk := d } = writePageRecord 0 { ph with
      flags := xvfsMagic
      checksum := crc (headerImage b)
      generation := succ32 ph.generation } (headerImage b) := by
    simp only [headerWrites, hph]
    rfl
  have hother : ∀ {s : Nat}, s ≠ 0 → (d.applyAll (headerWrites crc { b with disk := d })).hdr s = d.hdr s ∧
      (d.applyAll (headerWrites crc { b with disk := d })).pay s = d.pay s :=
    fun hs => headerWrites_other { b with disk := d } hs
  rw [heq]
  refine ⟨_, rfl, ⟨?_, ?_, fun j hj => ?_⟩, hd.inv.header, fun p hp hpk hp0 s hs => ?_⟩
  · exact ⟨_, by simp only [hws, applyAll_writePageRecord, Function.update_self]; rfl, rfl, rfl⟩
  · simp only [hws, applyAll_writePageRecord, Function.update_self]
  · obtain ⟨hk, hentry⟩ := h.overflow_page hj
    have hne : b.entries (overflowLogical b.pageSize j) ≠ 0 := by
      rw [hentry]
      refine h.table.owns_ne (by simp [Layout.Main, hk]) hmain0 ?_ (.inl rfl) howns0
      intro h0
      rw [h0, h.table.header.1] at hk
      cases hk
    obtain ⟨hhdr, hpay⟩ := hother hne
    rw [hhdr, hpay]
    exact hd.done j hj hj
  · obtain ⟨hhdr, hpay⟩ := hother (h.table.owns_ne hp hmain0 hp0 hs howns0)
    obtain ⟨hhdr0, hpay0⟩ := hd.others p hp hpk s hs
    exact ⟨hhdr.trans hhdr0, hpay.trans hpay0⟩

end Close

end Storage
end SphereVFS
