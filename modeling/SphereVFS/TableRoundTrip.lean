import SphereVFS.StorageClose
import SphereVFS.MirrorPairs

/-!
# SphereVFS.TableRoundTrip

The indirection table through `storage_close` and `storage_open`, after any allocations, frees and flushes.
-/

namespace SphereVFS
namespace Storage

/-! ## Runs -/

inductive TableCall where
  | allocate
  | free (page : Nat)
  | ensureCapacity (needed : Int)
  | flush

/-- `storage_free` does nothing with the two reserved pages. -/
def tableStep (crc : Words → UInt32) (s : Session) : TableCall → Session
  | .allocate => step crc s .allocate
  | .free page =>
    ⟨storageFree crc s.backend page, if page < 2 then s.pages else Function.update s.pages page none⟩
  | .ensureCapacity needed => ⟨indirEnsureCapacityFor s.backend needed, s.pages⟩
  | .flush => step crc s .flush

def tableRun (crc : Words → UInt32) (s : Session) (calls : List TableCall) : Session :=
  calls.foldl (tableStep crc) s

def TableCall.Names (s : Session) : TableCall → Bool
  | .free page => decide (page < 2) || indirLookup s.backend page == 0 || (s.pages page).isSome
  | _ => true

/-- A call names pages it may, and indices stay below `2 ^ 31`. -/
structure TableCall.Ok (crc : Words → UInt32) (s : Session) (c : TableCall) : Prop where
  names : c.Names s = true
  pages : (tableStep crc s c).backend.totalPages ≤ 2 ^ 31

instance (crc : Words → UInt32) (s : Session) (c : TableCall) : Decidable (c.Ok crc s) :=
  decidable_of_iff (c.Names s = true ∧ (tableStep crc s c).backend.totalPages ≤ 2 ^ 31)
    ⟨fun h => ⟨h.1, h.2⟩, fun h => ⟨h.names, h.pages⟩⟩

structure TableInv (crc : Words → UInt32) (pageSize : Nat) (s : Session) (L : Layout) (chain : List Nat) : Prop where
  steady : Steady crc s.backend s.pages L chain
  header : (s.backend.disk.hdr 0).isSome
  pageSize : s.backend.pageSize = pageSize

section Step

variable {crc : Words → UInt32} {pageSize : Nat} {s : Session} {L : Layout} {chain : List Nat}

theorem storageFree_ignored {b : Backend} {page : Nat} (h : page < 2 ∨ indirLookup b page = 0) :
    storageFree crc b page = b := by
  rw [storageFree]
  by_cases htwo : page < 2
  · rw [if_pos htwo]
  · rw [if_neg htwo, if_pos (h.resolve_left htwo)]

theorem TableInv.step (h : TableInv crc pageSize s L chain) {c : TableCall} (hok : c.Ok crc s) :
    ∃ L' chain', TableInv crc pageSize (tableStep crc s c) L' chain' := by
  cases c with
  | allocate =>
    obtain ⟨q, b1, L1, chain1, halloc, ht⟩ := h.steady.queue.allocate h.steady.inv
    refine ⟨L1, chain1, ?_⟩
    simp only [tableStep, Storage.step, halloc]
    refine ⟨h.steady.take ht, ?_, ht.alloc.kept.pageSize.trans h.pageSize⟩
    rw [ht.alloc.kept.disk]
    exact h.header
  | free p =>
    by_cases hskip : p < 2 ∨ indirLookup s.backend p = 0
    · -- nothing happens
      have hpages : (if p < 2 then s.pages else Function.update s.pages p none) = s.pages := by
        split
        · rfl
        · next htwo =>
          rw [Function.update_eq_self_iff]
          by_contra hp
          exact (h.steady.inv.client p (Ne.symm hp)).2 (hskip.resolve_left htwo)
      refine ⟨L, chain, ?_⟩
      simp only [tableStep, storageFree_ignored hskip, hpages]
      exact h
    · obtain ⟨htwo, hlook⟩ := not_or.1 hskip
      have hp : s.pages p ≠ none := by
        have := hok.names
        simpa [TableCall.Names, htwo, hlook, Option.isSome_iff_ne_none] using this
      obtain ⟨L1, chain1, hg⟩ := h.steady.free (Nat.le_of_not_lt htwo) hp
      refine ⟨L1, chain1, ?_⟩
      simp only [tableStep, if_neg htwo]
      refine ⟨hg.steady, ?_, hg.pageSize.trans h.pageSize⟩
      rw [hg.disk]
      exact h.header
  | ensureCapacity needed =>
    obtain ⟨L1, hg⟩ := h.steady.inv.growTable (s.backend.totalPages + needed).toNat
      ((s.backend.totalPages + needed).toNat + 1)
    refine ⟨L1, chain, h.steady.grow hg, ?_, hg.same.pageSize.trans h.pageSize⟩
    show ((growTable _ _ s.backend).disk.hdr 0).isSome
    rw [hg.same.disk]
    exact h.header
  | flush =>
    have hpages : (storageFlush crc s.backend).totalPages ≤ 2 ^ 31 := hok.pages
    obtain ⟨L1, chain1, hs⟩ := h.steady.storageFlush hpages
    refine ⟨L1, chain1, ?_⟩
    simp only [tableStep, Storage.step]
    generalize storageFlush crc s.backend = b1 at hs ⊢
    exact ⟨hs.steady, hs.present 0 h.header, hs.pageSize.trans h.pageSize⟩

theorem newSession_tableInv (hsize : 120 ≤ pageSize) :
    TableInv crc pageSize (newSession crc pageSize) (newLayout pageSize) [] := by
  refine ⟨newSession_steady hsize, ?_, rfl⟩
  simp [newSession, bootstrapNew, writePageRecord, Disk.apply, physRecordSize, pageHeaderSize]

structure TableBack (crc : Words → UInt32) (b : Backend) (d : Disk Words) : Prop where
  mounts : ∃ header, mountExisting crc d = some header ∧
    (∀ p : Int, indirLookup (mounted d header) p = indirLookup b p) ∧
    (mounted d header).overflowCount = b.overflowCount ∧
    (indirInit d header).map Prod.fst = (List.range b.overflowCount).map (overflowLogical b.pageSize)

theorem TableStored.back {b : Backend} {d : Disk Words} {pages : Nat → Option (Option Words)}
    (h : Inv crc b pages L) (hd : TableStored crc b d) (hmin : 512 ≤ b.pageSize) (hmax : b.pageSize ≤ 65536) :
    TableBack crc b d := by
  have hlive : ∀ i < b.overflowCount, b.entries (overflowLogical b.pageSize i) ≠ 0 := h.overflow_entry
  obtain ⟨hinit, hmounted⟩ := mounted_stored h.table.size hd hlive h.overflow_le_tail
  refine ⟨headerImage b, mountExisting_stored hd hmin hmax, fun p => ?_, ?_, ?_⟩
  · rw [hmounted, indirLookup, indirLookup]
    by_cases hneg : p < 0
    · rw [if_pos hneg, if_pos hneg]
    · rw [if_neg hneg, if_neg hneg]
      by_cases hp : p.toNat < totalEntries b
      · rw [if_pos hp]
        exact (if_pos hp).trans (if_pos hp)
      · rw [if_neg hp]
        exact if_neg hp
  · rw [hmounted]
  · rw [hinit, overflowPages, List.map_map]
    rfl

theorem TableInv.close (h : TableInv crc pageSize s L chain) (hmin : 512 ≤ pageSize) (hmax : pageSize ≤ 65536)
    (hhome : TableHome s.backend) (hpages : (storageFlush crc s.backend).totalPages ≤ 2 ^ 31) :
    TableBack crc (storageFlush crc s.backend) (storageClose crc s.backend) := by
  obtain ⟨L1, chain1, hs, hready⟩ := h.steady.cacheFlushAll
    (Nat.le_trans (cacheFlushAll_totalPages_le s.backend) hpages)
  replace hready := hready (hhome.ready h.steady.inv)
  have hheader := hs.present 0 h.header
  have hps := hs.pageSize.trans h.pageSize
  have hinv := hs.steady.inv
  rw [storageClose, storageFlush_eq]
  generalize cacheFlushAll crc s.backend = b1 at hready hheader hps hinv ⊢
  obtain ⟨d, heq, hf⟩ := hinv.tableFlushed hready hheader (show b1.overflowCount ≤ 2 * b1.overflowCount + 1 by omega)
  rw [heq]
  have hstored : TableStored crc { b1 with disk := d } d :=
    ⟨hf.stored.header, hf.stored.payload, hf.stored.overflow⟩
  subst hps
  exact hstored.back hf.inv hmin hmax

end Step

/-- **The table comes back** after any allocations, frees, growth and flushes, if before the backend is closed
the next write of every overflow page goes to its own record: the table built from the file gives the same
entry for every logical page, and has the same overflow pages. -/
theorem table_round_trip {crc : Words → UInt32} {pageSize : Nat} (hmin : 512 ≤ pageSize) (hmax : pageSize ≤ 65536)
    (calls : List TableCall)
    (hcalls : Run.AllSteps (tableStep crc) (fun s c => c.Ok crc s) (newSession crc pageSize) calls)
    (hhome : TableHome (tableRun crc (newSession crc pageSize) calls).backend)
    (hpages : (storageFlush crc (tableRun crc (newSession crc pageSize) calls).backend).totalPages ≤ 2 ^ 31) :
    TableBack crc (storageFlush crc (tableRun crc (newSession crc pageSize) calls).backend)
      (storageClose crc (tableRun crc (newSession crc pageSize) calls).backend) := by
  obtain ⟨L, chain, h⟩ := Run.invariant (fun s => ∃ L chain, TableInv crc pageSize s L chain)
    (fun _ _ ⟨_, _, hs⟩ hok => hs.step hok) ⟨_, _, newSession_tableInv (by omega)⟩ hcalls
  exact h.close hmin hmax hhome hpages

theorem table_round_trip_three_flushes :
    let s := tableRun wordSum (newSession wordSum 512) (List.replicate 50 .allocate ++ [.flush, .flush])
    TableHome s.backend ∧ TableBack wordSum (storageFlush wordSum s.backend) (storageClose wordSum s.backend) := by
  have hhome : TableHome (tableRun wordSum (newSession wordSum 512)
      (List.replicate 50 .allocate ++ [.flush, .flush])).backend := by
    decide +kernel
  refine ⟨hhome, table_round_trip (by decide) (by decide) _ ?_ hhome ?_⟩
  · decide +kernel
  · decide +kernel

/-- With one flush before it: the sibling that `storage_close` takes for the overflow page is lost. -/
theorem table_round_trip_two_flushes :
    let s := tableRun wordSum (newSession wordSum 512) (List.replicate 50 .allocate ++ [.flush])
    Run.AllSteps (tableStep wordSum) (fun s c => c.Ok wordSum s) (newSession wordSum 512)
      (List.replicate 50 .allocate ++ [.flush]) ∧
    ((mountExisting wordSum (storageClose wordSum s.backend)).map fun header =>
      indirLookup (mounted (storageClose wordSum s.backend) header) 53) = some 0 ∧
    indirLookup (storageFlush wordSum s.backend) 53 ≠ 0 := by
  decide +kernel

end Storage
end SphereVFS
