import SphereVFS.PoolAlloc
import Mathlib.Data.List.GetD

/-!
# SphereVFS.NameChain

Names in the pool: `nodes_write_name` writes a name as a chain of slots, and `process_name_entry` gives
the slots of a name back when its entry is reclaimed.

The writer keeps the link to the next slot in the last eight bytes of a slot, at `NAMEENTRY_OFF_NEXTPTR`.
The reclaiming walk reads it eight bytes earlier, at `ANCHOR_OFF_SIBPTR`, where a name slot has bytes of
the name. So it finds the end of the chain in a name of at most eight bytes, and the bytes of a longer
name are taken for a pointer.
-/

namespace SphereVFS
namespace PoolAlloc

open Bytes

/-! ## Writing a name -/

/-- `NAMEENTRY_FIRST_SLOT_NAME_MAX`. -/
def firstSlotNameMax : Nat := 16

/-- `NAMEENTRY_DATA_SIZE`. -/
def nameDataSize : Nat := 24

/-- `NAMEENTRY_OFF_NEXTPTR`. -/
def nameOffNextPtr : Nat := 24

def anchorOffSibPtr : Nat := 16

def slotsNeeded (name : Name) : Nat :=
  if name.length ≤ firstSlotNameMax then 1
  else 1 + (name.length - firstSlotNameMax + nameDataSize - 1) / nameDataSize

/-- The data of slot `i`. In the first slot the hash comes before the name. -/
def nameData (name : Name) : Nat → Buffer
  | 0 => put (fun o => name.getD (o - 8) 0) 0 8 (nameHash name).toNat
  | i + 1 => fun o => name.getD (firstSlotNameMax + i * nameDataSize + o) 0

/-- `nodes_write_name_entry`: 24 bytes of data, and the link. -/
def nameEntry (name : Name) (i next : Nat) : Buffer := put (nameData name i) nameOffNextPtr 8 next

/-- The loop of `nodes_write_name`, with `i` slots to write: the last slot of the name comes first, and
`slots` are the ones behind it. `store` tells what `storage_allocate` and `malloc` answer. -/
def writeSlots (store : Pool → Option Nat × Bool) (name : Name) :
    Nat → Nat → List Nat → Session → Option (List Nat × Session)
  | 0, _, slots, s => some (slots, s)
  | i + 1, next, slots, s =>
    match poolAlloc s.pool (store s.pool).1 (store s.pool).2 with
    | (some (v + 1), pool) =>
      writeSlots store name i (v + 1) ((v + 1) :: slots)
        ⟨poolRelease pool (v + 1) (nameEntry name i next), (v + 1) :: s.allocated⟩
    | _ => none

/-- In the `i` rounds of the loop from here on, `storage_allocate` and `malloc` succeed whenever the pool
has no free slot. -/
def Supplied (store : Pool → Option Nat × Bool) (name : Name) : Nat → Nat → Session → Prop
  | 0, _, _ => True
  | i + 1, next, s =>
    (poolListFindFree s.pool = 0 → (store s.pool).1.isSome ∧ (store s.pool).2 = true) ∧
      match poolAlloc s.pool (store s.pool).1 (store s.pool).2 with
      | (some (v + 1), pool) => Supplied store name i (v + 1)
        ⟨poolRelease pool (v + 1) (nameEntry name i next), (v + 1) :: s.allocated⟩
      | _ => True

/-- `nodes_write_name`: the slots of the chain, the first one in front; `none` when a slot is not to be
had. -/
def nodesWriteName (store : Pool → Option Nat × Bool) (name : Name) (s : Session) :
    Option (List Nat × Session) :=
  if name = [] then some ([], s) else writeSlots store name (slotsNeeded name) 0 [] s

/-! ## Giving it back -/

/-- `pool_acquire`: a copy of the 32 bytes, zeros if the page cannot be read. -/
def poolAcquire (pool : Pool) (v : Nat) : Buffer := fun o =>
  match pool.page (vptrPage v) with
  | some payload => if o < 32 then payload (slotOffset (vptrSlot v) + o) else 0
  | none => 0

/-- `process_name_entry`: the pointers `pool_free` was called for, and the pool; `none` if the walk does
not end within `n` rounds. A pointer other than null is never refused, whatever it points to. -/
def processNameEntry : Nat → Nat → Pool → Option (List Nat × Pool)
  | 0, _, _ => none
  | n + 1, v, pool =>
    if v = 0 then some ([], pool)
    else
      match processNameEntry n (get (poolAcquire pool v) anchorOffSibPtr 8) (poolFree pool v).2 with
      | some (calls, pool') => some (v :: calls, pool')
      | none => none

/-- The walk over the chain ends, and it calls `pool_free` once for each slot of the chain and for
nothing else. -/
def FreesExactly (pool : Pool) (slots : List Nat) : Prop :=
  ∃ n calls pool', processNameEntry n (slots.headD 0) pool = some (calls, pool') ∧ calls.Perm slots

def Call.Leaves (slots : List Nat) : Call → Prop
  | .alloc _ _ => True
  | .free v => v ∉ slots
  | .release v _ => v ∉ slots

/-! ## A slot keeps its bytes -/

structure Holds (pool : Pool) (page slot : Nat) (bytes : Buffer) : Prop where
  slot_lt : slot < 2 ^ 16
  bytes : ∃ payload, pool.page page = some payload ∧
    ∀ o < 32, payload (slotOffset slot + o) = bytes o

section Holds

variable {pool pool' : Pool} {s : Session} {pageSize page slot p : Nat} {bytes payload payload' : Buffer}

theorem Holds.acquire (h : Holds pool page slot bytes) {o : Nat} (ho : o < 32) :
    poolAcquire pool (vptrMake page slot) o = bytes o := by
  obtain ⟨payload, hpage, hbytes⟩ := h.bytes
  simp only [poolAcquire, vptrPage_make h.slot_lt, vptrSlot_make h.slot_lt, hpage, if_pos ho]
  exact hbytes o ho

theorem Holds.update (h : Holds pool page slot bytes) (hp : pool.page p = some payload)
    (hpool : pool'.page = Function.update pool.page p (some payload'))
    (hsame : p = page → ∀ o < 32, payload' (slotOffset slot + o) = payload (slotOffset slot + o)) :
    Holds pool' page slot bytes := by
  obtain ⟨payload₀, hpage, hbytes⟩ := h.bytes
  refine ⟨h.slot_lt, ?_⟩
  by_cases hpp : p = page
  · subst hpp
    obtain rfl : payload = payload₀ := by simpa [hp] using hpage
    refine ⟨payload', by rw [hpool, Function.update_self], fun o ho => ?_⟩
    rw [hsame rfl o ho, hbytes o ho]
  · exact ⟨payload₀, by rw [hpool, Function.update_of_ne (Ne.symm hpp), hpage], hbytes⟩

theorem putState_slot (payload : Buffer) (v slot o : Nat) :
    put payload offState 4 v (slotOffset slot + o) = payload (slotOffset slot + o) :=
  put_apply (by rw [slotOffset, offState]; omega)

theorem Holds.takeSlot (h : Holds pool page slot bytes) (q : Nat) :
    Holds (PoolAlloc.takeSlot pool q).2 page slot bytes := by
  rw [PoolAlloc.takeSlot]
  split
  · exact h
  · rename_i payload hq
    dsimp only
    split
    · exact h
    · exact h.update hq rfl fun _ o _ => putState_slot ..

theorem Holds.poolAlloc (h : Holds pool page slot bytes) {grant : Option Nat} (malloc : Bool)
    (hgrant : ∀ q ∈ grant, (pool.page q).isNone) :
    Holds (PoolAlloc.poolAlloc pool grant malloc).2 page slot bytes := by
  obtain heq | heq | ⟨q, rfl, -, -, heq⟩ := poolAlloc_cases pool grant malloc
  · rw [heq]
    exact h.takeSlot _
  · rw [heq]
    exact h
  · rw [heq]
    refine Holds.takeSlot ⟨h.slot_lt, ?_⟩ q
    obtain ⟨payload, hpage, hbytes⟩ := h.bytes
    have hne : page ≠ q := by
      rintro rfl
      simpa [hpage] using hgrant page rfl
    exact ⟨payload, (Function.update_of_ne hne ..).trans hpage, hbytes⟩

theorem Holds.step (h : Holds s.pool page slot bytes) (hinv : Inv pageSize s) {c : Call} (hok : c.Ok s)
    (hleaves : c.Leaves [vptrMake page slot]) : Holds (step s c).pool page slot bytes := by
  have hlt := slotCount_lt pageSize
  -- a pointer of the client names another slot
  have hother : ∀ v ∈ s.allocated, v ≠ vptrMake page slot → ∃ p i payload, v = vptrMake p i ∧
      vptrPage v = p ∧ vptrSlot v = i ∧ s.pool.page p = some payload ∧ (p = page → i ≠ slot) := by
    intro v hv hne
    obtain ⟨p, i, payload, rfl, hi, hp⟩ := hinv.slot v hv
    refine ⟨p, i, payload, rfl, vptrPage_make (by omega), vptrSlot_make (by omega), hp, ?_⟩
    rintro rfl rfl
    exact hne rfl
  cases c with
  | alloc grant malloc =>
    rw [step_alloc_pool]
    exact h.poolAlloc _ fun q hq => (hok q hq).2
  | free v =>
    obtain ⟨p, i, payload, -, hvp, hvi, hp, hne⟩ := hother v hok (by simpa [Call.Leaves] using hleaves)
    simp only [PoolAlloc.step, PoolAlloc.poolFree, hvp, hvi, hp]
    split
    · exact h
    · split
      · exact h
      · refine h.update hp rfl fun hpp o ho => ?_
        have := hne hpp
        rw [putState_slot]
        refine put_apply ?_
        rw [slotOffset, slotOffset]
        omega
  | release v b =>
    obtain ⟨p, i, payload, -, hvp, hvi, hp, hne⟩ := hother v hok (by simpa [Call.Leaves] using hleaves)
    simp only [PoolAlloc.step, PoolAlloc.poolRelease, hvp, hvi, hp]
    refine h.update hp rfl fun hpp o ho => if_neg ?_
    have := hne hpp
    rw [slotOffset, slotOffset]
    omega

theorem holds_release (hslot : slot < 2 ^ 16) (hpage : pool.page page = some payload) :
    Holds (poolRelease pool (vptrMake page slot) bytes) page slot bytes := by
  refine ⟨hslot, fun o => if slotOffset slot ≤ o ∧ o < slotOffset slot + 32 then
    bytes (o - slotOffset slot) else payload o, ?_, fun o ho => ?_⟩
  · simp only [poolRelease, vptrPage_make hslot, vptrSlot_make hslot, hpage]
    exact Function.update_self ..
  · dsimp only
    rw [if_pos (by omega), Nat.add_sub_cancel_left]

end Holds

/-! ## The chain of a name -/

def HoldsAt (pool : Pool) (v : Nat) (bytes : Buffer) : Prop :=
  ∃ page slot, v = vptrMake page slot ∧ 2 ≤ page ∧ Holds pool page slot bytes

/-- The slots have the parts of the name from number `i` on. -/
def Stored (pool : Pool) (name : Name) : Nat → List Nat → Prop
  | _, [] => True
  | i, v :: rest => HoldsAt pool v (nameEntry name i (rest.headD 0)) ∧ Stored pool name (i + 1) rest

structure Chained (pageSize : Nat) (name : Name) (i : Nat) (slots : List Nat) (s : Session) : Prop where
  inv : Inv pageSize s
  mine : ∀ v ∈ slots, v ∈ s.allocated
  nodup : slots.Nodup
  stored : Stored s.pool name i slots

structure KeepsSlots (s s' : Session) : Prop where
  mine : ∀ v ∈ s.allocated, v ∈ s'.allocated
  holds : ∀ v ∈ s.allocated, ∀ bytes, HoldsAt s.pool v bytes → HoldsAt s'.pool v bytes

section Write

variable {pageSize : Nat} {store : Pool → Option Nat × Bool} {name name' : Name} {s s' s'' : Session}
  {slots slots' : List Nat} {pool : Pool} {v i : Nat}

theorem slotsNeeded_pos (name : Name) : 0 < slotsNeeded name := by
  rw [slotsNeeded]
  split
  · exact Nat.one_pos
  · exact Nat.add_pos_left Nat.one_pos _

theorem KeepsSlots.trans (h : KeepsSlots s s') (h' : KeepsSlots s' s'') : KeepsSlots s s'' :=
  ⟨fun v hv => h'.mine v (h.mine v hv),
    fun v hv bytes hb => h'.holds v (h.mine v hv) bytes (h.holds v hv bytes hb)⟩

theorem Stored.imp {pool pool' : Pool} {i : Nat} (h : Stored pool name i slots)
    (hkeep : ∀ v ∈ slots, ∀ bytes, HoldsAt pool v bytes → HoldsAt pool' v bytes) :
    Stored pool' name i slots := by
  induction slots generalizing i with
  | nil => trivial
  | cons v rest ih =>
    exact ⟨hkeep v List.mem_cons_self _ h.1, ih h.2 fun w hw => hkeep w (List.mem_cons_of_mem v hw)⟩

theorem Chained.round (h : Chained pageSize name (i + 1) slots s)
    (hstore : ∀ page ∈ (store s.pool).1, (s.pool.page page).isNone)
    (heq : poolAlloc s.pool (store s.pool).1 (store s.pool).2 = (some v, pool)) (htook : Took pageSize s v pool) :
    Chained pageSize name i (v :: slots)
        ⟨poolRelease pool v (nameEntry name i (slots.headD 0)), v :: s.allocated⟩ ∧
      KeepsSlots s ⟨poolRelease pool v (nameEntry name i (slots.headD 0)), v :: s.allocated⟩ := by
  obtain ⟨page, slot, payload, hv, hslot, hpage⟩ := htook.inv.slot v List.mem_cons_self
  have hslot : slot < 2 ^ 16 := Nat.lt_of_lt_of_le hslot (Nat.le_of_lt (slotCount_lt pageSize))
  have hkeep : KeepsSlots s ⟨poolRelease pool v (nameEntry name i (slots.headD 0)), v :: s.allocated⟩ := by
    refine ⟨fun u hu => List.mem_cons_of_mem _ hu, ?_⟩
    rintro u hu bytes ⟨p, j, rfl, hp, hholds⟩
    have halloc : Holds pool p j bytes := by
      have := hholds.poolAlloc (store s.pool).2 hstore
      rwa [heq] at this
    refine ⟨p, j, rfl, hp, halloc.step (s := ⟨pool, v :: s.allocated⟩) (c := .release v _)
      htook.inv List.mem_cons_self ?_⟩
    intro hmem
    rw [← List.mem_singleton.1 hmem] at hu
    exact htook.fresh hu
  refine ⟨⟨htook.inv.poolRelease List.mem_cons_self _, fun u hu => ?_, ?_, ?_, ?_⟩, hkeep⟩
  · obtain rfl | hu := List.mem_cons.1 hu
    · exact List.mem_cons_self
    · exact List.mem_cons_of_mem _ (h.mine u hu)
  · exact List.nodup_cons.2 ⟨fun hu => htook.fresh (h.mine _ hu), h.nodup⟩
  · refine ⟨page, slot, hv, (htook.inv.page page payload hpage).1, ?_⟩
    rw [hv]
    exact holds_release hslot hpage
  · exact h.stored.imp fun u hu => hkeep.holds u (h.mine u hu)

variable (hsize : 48 ≤ pageSize)
  (hstore : ∀ pool, ∀ page ∈ (store pool).1, 2 ≤ page ∧ (pool.page page).isNone)
include hsize hstore

theorem writeSlots_chained (h : Chained pageSize name i slots s)
    (hwrite : writeSlots store name i (slots.headD 0) slots s = some (slots', s')) :
    Chained pageSize name 0 slots' s' ∧ slots'.length = slots.length + i ∧ KeepsSlots s s' := by
  induction i generalizing slots s with
  | zero =>
    cases hwrite
    exact ⟨h, rfl, fun _ hv => hv, fun _ _ _ hb => hb⟩
  | succ i ih =>
    have hok : (Call.alloc (store s.pool).1 (store s.pool).2).Ok s := hstore s.pool
    obtain hnull | ⟨v, pool, heq, htook⟩ := h.inv.alloc_cases hsize hok
    · simp [writeSlots, hnull] at hwrite
    · obtain ⟨hchained, hkeep⟩ := h.round (fun page hpage => (hstore _ page hpage).2) heq htook
      obtain ⟨w, rfl⟩ := Nat.exists_eq_add_one_of_ne_zero htook.ne_zero
      simp only [writeSlots, heq] at hwrite
      obtain ⟨hlast, hlength, hkeep'⟩ := ih hchained hwrite
      refine ⟨hlast, ?_, hkeep.trans hkeep'⟩
      rw [hlength, List.length_cons]
      omega

theorem nodesWriteName_chained (hname : name ≠ []) (h : Inv pageSize s)
    (hwrite : nodesWriteName store name s = some (slots, s')) :
    Chained pageSize name 0 slots s' ∧ slots.length = slotsNeeded name ∧ KeepsSlots s s' := by
  rw [nodesWriteName, if_neg hname] at hwrite
  have hstart : Chained pageSize name (slotsNeeded name) [] s := ⟨h, by simp, List.nodup_nil, trivial⟩
  simpa using writeSlots_chained hsize hstore hstart hwrite

theorem writeSlots_isSome (h : Chained pageSize name i slots s)
    (hsupplied : Supplied store name i (slots.headD 0) s) :
    (writeSlots store name i (slots.headD 0) slots s).isSome := by
  induction i generalizing slots s with
  | zero => rfl
  | succ i ih =>
    obtain ⟨hgrant, hrest⟩ := hsupplied
    obtain ⟨v, pool, heq, htook⟩ := h.inv.alloc_ok hsize (hstore s.pool) hgrant
    obtain ⟨hchained, -⟩ := h.round (fun page hpage => (hstore _ page hpage).2) heq htook
    obtain ⟨w, rfl⟩ := Nat.exists_eq_add_one_of_ne_zero htook.ne_zero
    simp only [writeSlots, heq] at hrest ⊢
    exact ih hchained hrest

theorem nodesWriteName_isSome (hname : name ≠ []) (h : Inv pageSize s)
    (hsupplied : Supplied store name (slotsNeeded name) 0 s) : (nodesWriteName store name s).isSome := by
  rw [nodesWriteName, if_neg hname]
  have hstart : Chained pageSize name (slotsNeeded name) [] s := ⟨h, by simp, List.nodup_nil, trivial⟩
  exact writeSlots_isSome hsize hstore hstart hsupplied

omit hstore in
theorem Chained.step (h : Chained pageSize name 0 slots s) {c : Call} (hok : c.Ok s)
    (hleaves : c.Leaves slots) : Chained pageSize name 0 slots (step s c) := by
  refine ⟨step_inv hsize h.inv hok, fun v hv => ?_, h.nodup, h.stored.imp ?_⟩
  · cases c with
    | alloc grant malloc =>
      rw [PoolAlloc.step]
      split
      · exact List.mem_cons_of_mem _ (h.mine v hv)
      · exact h.mine v hv
    | free u =>
      refine (List.mem_erase_of_ne ?_).2 (h.mine v hv)
      rintro rfl
      exact hleaves hv
    | release u bytes => exact h.mine v hv
  · rintro v hv bytes ⟨page, slot, rfl, htwo, hholds⟩
    refine ⟨page, slot, rfl, htwo, hholds.step h.inv hok ?_⟩
    cases c with
    | alloc grant malloc => trivial
    | free u => exact fun hu => hleaves (List.mem_singleton.1 hu ▸ hv)
    | release u bytes => exact fun hu => hleaves (List.mem_singleton.1 hu ▸ hv)

end Write

/-! ## The word the walk takes for the link -/

section Word

variable {name : Name}

theorem sibPtr_nameEntry (name : Name) (next : Nat) : get (nameEntry name 0 next) anchorOffSibPtr 8 =
    get (fun o => name.getD (o - 8) 0) anchorOffSibPtr 8 :=
  (get_put_ne (.inl (Nat.le_refl 24))).trans (get_put_ne (.inr (by rw [anchorOffSibPtr]; omega)))

theorem getD_ne_zero (hnul : 0 ∉ name) {i : Nat} (hi : i < name.length) : name.getD i 0 ≠ 0 := by
  rw [List.getD_eq_getElem _ _ hi]
  exact fun h => hnul (h ▸ List.getElem_mem hi)

theorem sibPtr_short {next : Nat} (h : name.length ≤ 8) :
    get (nameEntry name 0 next) anchorOffSibPtr 8 = 0 := by
  rw [sibPtr_nameEntry]
  refine get_eq_zero fun i hi => ?_
  have hle : name.length ≤ anchorOffSibPtr + i - 8 := by
    rw [anchorOffSibPtr]
    omega
  exact List.getD_eq_default _ _ hle

theorem sibPtr_long {next : Nat} (hnul : 0 ∉ name) (h : 8 < name.length) :
    get (nameEntry name 0 next) anchorOffSibPtr 8 ≠ 0 := by
  rw [sibPtr_nameEntry]
  exact get_ne_zero (getD_ne_zero hnul (by rw [anchorOffSibPtr]; omega))

theorem sibPtr_large {next : Nat} (hnul : 0 ∉ name) (h : 16 ≤ name.length) :
    2 ^ 56 ≤ get (nameEntry name 0 next) anchorOffSibPtr 8 := by
  rw [sibPtr_nameEntry]
  refine Nat.le_trans (by decide : 2 ^ 56 ≤ 256 ^ 7) (pow_le_get ?_)
  exact getD_ne_zero hnul (by rw [anchorOffSibPtr]; omega)

end Word

/-! ## The walk -/

section Walk

variable {pool : Pool} {v n : Nat} {calls : List Nat} {pool' : Pool}

theorem processNameEntry_cons (hv : v ≠ 0)
    (h : processNameEntry n v pool = some (calls, pool')) :
    ∃ m rest, n = m + 1 ∧ calls = v :: rest ∧
      processNameEntry m (get (poolAcquire pool v) anchorOffSibPtr 8) (poolFree pool v).2 =
        some (rest, pool') := by
  cases n with
  | zero => cases h
  | succ n =>
    rw [processNameEntry, if_neg hv] at h
    split at h
    · rename_i rest pool₁ hrest
      cases h
      exact ⟨n, rest, rfl, rfl, hrest⟩
    · cases h

end Walk

/-- **Reclaiming a name.** Whatever was done to the pool before and since, a name of at most eight bytes
is given back as it should be: one call of `pool_free`, for its only slot. A longer name is not, unless a
slot of the chain lies on a page above `2 ^ 40`, whose pointer may by chance be the bytes of the name. -/
theorem name_reclaimed {pageSize : Nat} (hsize : 48 ≤ pageSize) (before after : List Call)
    (hbefore : Run.AllSteps step (fun s c => c.Ok s) (newSession pageSize) before)
    {store : Pool → Option Nat × Bool}
    (hstore : ∀ pool, ∀ page ∈ (store pool).1, 2 ≤ page ∧ (pool.page page).isNone)
    {name : Name} (hname : name ≠ []) (hnul : 0 ∉ name) {slots : List Nat} {s : Session}
    (hwrite : nodesWriteName store name (run (newSession pageSize) before) = some (slots, s))
    (hafter : Run.AllSteps step (fun s c => c.Ok s ∧ c.Leaves slots) s after) :
    (name.length ≤ 8 → FreesExactly (run s after).pool slots) ∧
      (FreesExactly (run s after).pool slots → name.length ≤ 8 ∨ ∃ v ∈ slots, 2 ^ 56 ≤ v) := by
  have hinv : Inv pageSize (run (newSession pageSize) before) :=
    Run.invariant (Inv pageSize) (fun _ _ hs hok => step_inv hsize hs hok) (newSession_inv pageSize) hbefore
  obtain ⟨hchained, hlength, -⟩ := nodesWriteName_chained hsize hstore hname hinv hwrite
  have hlast : Chained pageSize name 0 slots (run s after) :=
    Run.invariant (Chained pageSize name 0 slots) (fun _ _ hs hok => hs.step hsize hok.1 hok.2) hchained hafter
  obtain ⟨v, rest, rfl⟩ := List.exists_cons_of_length_pos (hlength ▸ slotsNeeded_pos name)
  obtain ⟨page, slot, rfl, htwo, hholds⟩ := hlast.stored.1
  have hv : vptrMake page slot ≠ 0 := by
    rw [vptrMake_eq hholds.slot_lt]
    omega
  have hword : get (poolAcquire (run s after).pool (vptrMake page slot)) anchorOffSibPtr 8 =
      get (nameEntry name 0 (rest.headD 0)) anchorOffSibPtr 8 :=
    get_congr fun i hi => hholds.acquire (by rw [anchorOffSibPtr]; omega)
  have hsingle : name.length ≤ 16 → rest = [] := by
    intro hle
    rw [slotsNeeded, if_pos (show name.length ≤ firstSlotNameMax from hle), List.length_cons] at hlength
    exact List.length_eq_zero_iff.1 (Nat.succ.inj hlength)
  refine ⟨fun hshort => ?_, fun ⟨n, calls, pool', hwalk, hperm⟩ => ?_⟩
  · obtain rfl := hsingle (by omega)
    refine ⟨2, [vptrMake page slot], (poolFree (run s after).pool (vptrMake page slot)).2, ?_, .refl _⟩
    simp only [List.headD_cons, processNameEntry, if_neg hv, hword, sibPtr_short hshort, if_true]
  · by_contra hnot
    obtain ⟨hlong, hlow⟩ := not_or.1 hnot
    -- after the first slot the walk goes on with bytes of the name
    obtain ⟨m, calls, -, rfl, hsecond⟩ := processNameEntry_cons hv hwalk
    rw [hword] at hsecond
    obtain ⟨-, calls, -, rfl, -⟩ := processNameEntry_cons (sibPtr_long hnul (by omega)) hsecond
    by_cases hle : name.length ≤ 16
    · obtain rfl := hsingle hle
      simpa using hperm.length_eq
    · refine hlow ⟨_, hperm.subset (List.mem_cons_of_mem _ List.mem_cons_self), ?_⟩
      exact sibPtr_large hnul (by omega)

def firstUnused (pool : Pool) : Option Nat × Bool :=
  ((List.range' 2 8).find? fun page => (pool.page page).isNone, true)

theorem firstUnused_ok (pool : Pool) :
    ∀ page ∈ (firstUnused pool).1, 2 ≤ page ∧ (pool.page page).isNone := by
  intro page hpage
  have hmem := List.mem_of_find?_eq_some hpage
  have hnone := List.find?_some hpage
  simp only [List.mem_range'_1] at hmem
  exact ⟨hmem.1, hnone⟩

theorem name_reclaimed_short : ∃ slots s,
    nodesWriteName firstUnused [97, 98, 99] (newSession 112) = some (slots, s) ∧
      FreesExactly s.pool slots := by
  have hsome : (nodesWriteName firstUnused [97, 98, 99] (newSession 112)).isSome := by decide +kernel
  obtain ⟨⟨slots, s⟩, hwrite⟩ := Option.isSome_iff_exists.1 hsome
  exact ⟨slots, s, hwrite, (name_reclaimed (by decide) [] [] trivial firstUnused_ok (by simp) (by decide)
    hwrite trivial).1 (by decide)⟩

/-- A name of nine letters `a` has one slot, and the walk goes on to the pointer `97`, the last letter. One
of 17 letters has two slots, and the walk goes on to the pointer that eight letters make: the second slot
is not given back. -/
theorem long_name_not_reclaimed :
    (nodesWriteName firstUnused (List.replicate 9 97) (newSession 112)).map (fun r =>
        (r.1, (processNameEntry 3 (r.1.headD 0) r.2.pool).map Prod.fst)) =
      some ([vptrMake 2 0], some [vptrMake 2 0, 97]) ∧
    (nodesWriteName firstUnused (List.replicate 17 97) (newSession 112)).map (fun r =>
        (r.1, (processNameEntry 3 (r.1.headD 0) r.2.pool).map Prod.fst)) =
      some ([vptrMake 2 1, vptrMake 2 0], some [vptrMake 2 1, 0x6161616161616161]) := by
  decide +kernel

end PoolAlloc
end SphereVFS
