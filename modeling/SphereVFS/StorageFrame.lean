import SphereVFS.StorageRefine

/-!
# SphereVFS.StorageFrame

What a call of the backend leaves alone: what the cache has for other pages of the client.
-/

namespace SphereVFS
namespace Storage

open Mirror

section Frame

variable (crc : Words → UInt32)

theorem storageRead_other (b : Backend) {p x : Nat} (hx : x ≠ p) :
    (storageRead crc b p).2.cache x = b.cache x := by
  rw [storageRead]
  split
  · rfl
  · split
    · rfl
    · split
      · rw [cacheInsert]
        split <;> exact Function.update_of_ne hx ..
      · rfl
      · rfl

theorem writeFreeList_other (b : Backend) {p x : Nat} (hx : x ≠ p) (f : Words → Words) :
    (writeFreeList crc b p f).cache x = b.cache x := by
  have hread := storageRead_other crc b hx
  rw [writeFreeList]
  split <;> next heq =>
    rw [heq] at hread
    first
      | exact (Function.update_of_ne hx ..).trans hread
      | exact hread

variable {crc} {b : Backend} {pages : Nat → Option (Option Words)} {L : Layout}

theorem Inv.newTail_cache (h : Inv crc b pages L) {q tail x : Nat} (hx : pages x ≠ none)
    (htail : x ≠ tail) (offset : Nat) :
    (enqueueFreePage.newTail crc q offset b tail).cache x = b.cache x := by
  obtain ⟨page, b1, L1, heq, ht⟩ := h.tailAdvance (k := .queue) (.inr rfl)
  have hxp : x ≠ page := by
    rintro rfl
    have := (h.client x hx).1
    simp [ht.unused] at this
  have halloc : (Storage.allocFreeListPage crc b q offset).2.cache x = b.cache x := by
    simp only [Storage.allocFreeListPage, heq, writeFreeListEntry, writeFreeListCount, Storage.writeFreeListNext,
      writeFreeList_other crc _ hxp]
    rw [cacheInsert]
    split <;> exact (Function.update_of_ne hxp ..).trans (congrFun ht.same.cache x)
  rw [enqueueFreePage.newTail]
  split
  · next heq => rwa [heq] at halloc
  · next heq =>
    rw [heq] at halloc
    refine Eq.trans ?_ halloc
    show (if tail = 0 then _ else _ : Backend).cache x = _
    split
    · rfl
    · exact writeFreeList_other crc _ htail _

theorem Inv.enqueueFreePage_cache (h : Inv crc b pages L) {q offset x : Nat} (hx : pages x ≠ none) :
    (Storage.enqueueFreePage crc b q offset).cache x = b.cache x := by
  by_cases h0 : b.freeListTail = 0
  · have hx0 : x ≠ 0 := by
      rintro rfl
      exact hx h.pages_zero
    simp only [Storage.enqueueFreePage, h0, if_true]
    exact h.newTail_cache hx hx0 offset
  have hk := h.tail.resolve_left h0
  have hxt : x ≠ b.freeListTail := by
    rintro rfl
    exact hx (h.pages_of_queue hk)
  have hread := storageRead_other crc b hxt
  have hinv : Inv crc (Storage.storageRead crc b b.freeListTail).2 pages L := by
    obtain ⟨-, r, -, heq⟩ | ⟨e, cached, cache, -, heq, h1, -⟩ := h.storageRead_queue hk
    · rw [heq]
      exact h
    · rw [heq]
      exact h1
  have hcount : (readFreeListCount crc b b.freeListTail).2 =
      (Storage.storageRead crc b b.freeListTail).2 := by
    rw [readFreeListCount]
    split <;> next heq => rw [heq]
  rw [← hcount] at hread hinv
  simp only [Storage.enqueueFreePage, if_neg h0]
  split
  · split
    · refine Eq.trans ?_ hread
      exact (writeFreeList_other crc _ hxt _).trans (writeFreeList_other crc _ hxt _)
    · exact (hinv.newTail_cache hx hxt offset).trans hread
  · exact (hinv.newTail_cache hx hxt offset).trans hread

theorem Inv.storageFree_cache (h : Inv crc b pages L) {p x : Nat} (hp : pages p ≠ none) (htwo : 2 ≤ p)
    (hx : pages x ≠ none) (hxp : x ≠ p) : (Storage.storageFree crc b p).cache x = b.cache x := by
  obtain ⟨h1, heq⟩ := h.released hp htwo
  rw [heq, h1.enqueueFreePage_cache (by rwa [Function.update_of_ne hxp])]
  exact Function.update_of_ne hxp ..

end Frame

end Storage
end SphereVFS
