import SphereVFS.NameChain

/-!
# SphereVFS.NameRead

Names out of the pool: `nodes_read_name` walks the chain of slots that `nodes_write_name` left, and
`nodes_read_name_hash` reads the hash in front of it.

The first slot has 16 bytes of the name and the others 24. The reader stops at a zero byte, at the end of
the chain or when the buffer is full; what it has read is the name in each case, since a name has no zero
byte and fits in the buffer.
-/

namespace SphereVFS
namespace PoolAlloc

open Bytes

/-! ## Reading a name -/

/-- The loop over the `n` bytes of a slot from `off` on, with room for `room` more: the bytes, and whether
a zero byte ended the name. -/
def readSlot (buf : Buffer) : Nat → Nat → Nat → List UInt8 × Bool
  | 0, _, _ => ([], false)
  | n + 1, off, room =>
    if room = 0 then ([], false)
    else if buf off = 0 then ([], true)
    else ((buf off :: (readSlot buf n (off + 1) (room - 1)).1), (readSlot buf n (off + 1) (room - 1)).2)

/-- `data_len` of slot number `i`. -/
def dataLen (i : Nat) : Nat := if i = 0 then firstSlotNameMax else nameDataSize

/-- `data_off` of slot number `i`. -/
def dataOff (i : Nat) : Nat := if i = 0 then 8 else 0

/-- The loop over the slots, from slot number `i` at `v` on. A round that goes on fills at least one byte
of the room. -/
def readSlots (pool : Pool) : Nat → Nat → Nat → Nat → List UInt8
  | 0, _, _, _ => []
  | rounds + 1, i, v, room =>
    if v = 0 ∨ room = 0 then []
    else
      let r := readSlot (poolAcquire pool v) (dataLen i) (dataOff i) room
      if r.2 then r.1
      else r.1 ++ readSlots pool rounds (i + 1) (get (poolAcquire pool v) nameOffNextPtr 8) (room - r.1.length)

/-- `nodes_read_name`: the bytes in the buffer before the final zero; the function returns their number. -/
def nodesReadName (pool : Pool) (v maxLen : Nat) : List UInt8 := readSlots pool (maxLen - 1) 0 v (maxLen - 1)

def nodesReadNameHash (pool : Pool) (v : Nat) : Nat := if v = 0 then 0 else get (poolAcquire pool v) 0 8

/-! ## Storing other names -/

inductive Act where
  | call (c : Call)
  | writeName (store : Pool → Option Nat × Bool) (name : Name)

def act (s : Session) : Act → Session
  | .call c => step s c
  | .writeName store name =>
    match nodesWriteName store name s with
    | some (_, s') => s'
    | none => s

/-- The pool's calls leave the slots alone; a name is stored in whatever slots the pool gives. -/
def Act.Ok (slots : List Nat) (s : Session) : Act → Prop
  | .call c => c.Ok s ∧ c.Leaves slots
  | .writeName store name => (∀ pool, ∀ page ∈ (store pool).1, 2 ≤ page ∧ (pool.page page).isNone) ∧
    (nodesWriteName store name s).isSome

section Kept

variable {pageSize : Nat} {name : Name} {slots : List Nat} {s s' : Session}

theorem Chained.keep (h : Chained pageSize name 0 slots s) (hinv : Inv pageSize s') (hkeep : KeepsSlots s s') :
    Chained pageSize name 0 slots s' :=
  ⟨hinv, fun v hv => hkeep.mine v (h.mine v hv), h.nodup,
    h.stored.imp fun v hv => hkeep.holds v (h.mine v hv)⟩

theorem Chained.act (h : Chained pageSize name 0 slots s) (hsize : 48 ≤ pageSize) {a : Act}
    (hok : a.Ok slots s) : Chained pageSize name 0 slots (act s a) := by
  cases a with
  | call c => exact h.step hsize hok.1 hok.2
  | writeName store name' =>
    obtain ⟨⟨slots', s'⟩, hwrite⟩ := Option.isSome_iff_exists.1 hok.2
    simp only [PoolAlloc.act, hwrite]
    by_cases hname : name' = []
    · subst hname
      cases hwrite
      exact h
    · obtain ⟨hchained, -, hkeep⟩ := nodesWriteName_chained hsize hok.1 hname h.inv hwrite
      exact h.keep hchained.inv hkeep

end Kept

/-! ## The parts of a name -/

/-- The number of bytes of the name in the slots before number `i`. -/
def partStart : Nat → Nat
  | 0 => 0
  | i + 1 => firstSlotNameMax + i * nameDataSize

theorem partStart_succ (i : Nat) : partStart (i + 1) = partStart i + dataLen i := by
  cases i with
  | zero => rfl
  | succ i =>
    rw [partStart, partStart, dataLen, if_neg (Nat.succ_ne_zero i), Nat.succ_mul]
    omega

theorem length_le_partStart (name : Name) : name.length ≤ partStart (slotsNeeded name) := by
  rw [slotsNeeded]
  split
  · assumption
  · rename_i hlong
    rw [Nat.add_comm 1, partStart]
    simp only [firstSlotNameMax, nameDataSize] at hlong ⊢
    omega

theorem nameEntry_part (name : Name) (next : Nat) {i j : Nat} (hj : j < dataLen i) :
    nameEntry name i next (dataOff i + j) = (name.drop (partStart i)).getD j 0 := by
  rw [nameEntry, List.getD_eq_getElem?_getD, List.getElem?_drop, ← List.getD_eq_getElem?_getD]
  cases i with
  | zero =>
    have hj : j < 16 := hj
    rw [put_apply (by simp only [dataOff, if_true, nameOffNextPtr]; omega), nameData,
      put_apply (by simp only [dataOff, if_true]; omega)]
    congr 1
    simp only [dataOff, partStart, if_true]
    omega
  | succ i =>
    have hj : j < 24 := by simpa [dataLen, nameDataSize] using hj
    rw [put_apply (by simp only [dataOff, Nat.succ_ne_zero, if_false, nameOffNextPtr]; omega), nameData]
    simp only [dataOff, Nat.succ_ne_zero, if_false, Nat.zero_add, partStart]

theorem get_nameEntry_next (name : Name) (i : Nat) {next : Nat} (hnext : next < 2 ^ 64) :
    get (nameEntry name i next) nameOffNextPtr 8 = next := get_put hnext

theorem get_nameEntry_hash (name : Name) (next : Nat) :
    get (nameEntry name 0 next) 0 8 = (nameHash name).toNat := by
  rw [nameEntry, get_put_ne (by rw [nameOffNextPtr]; omega), nameData, get_put (nameHash name).toNat_lt]

section Read

variable {name rest : Name} {pool : Pool}

theorem readSlot_spec {buf : Buffer} {n off room : Nat} (hbuf : ∀ j < n, buf (off + j) = rest.getD j 0)
    (hnul : 0 ∉ rest) (hroom : rest.length ≤ room) :
    (readSlot buf n off room).1 = rest.take n ∧
      ((readSlot buf n off room).2 = true → rest.length ≤ n) ∧
      ((readSlot buf n off room).2 = false → n ≤ rest.length ∨ room = rest.length) := by
  induction n generalizing off room rest with
  | zero => simp [readSlot]
  | succ n ih =>
    have hfirst := hbuf 0 (Nat.succ_pos n)
    rw [readSlot]
    cases rest with
    | nil =>
      split
      · simp_all
      · rw [if_pos (show buf off = 0 from hfirst)]
        simp
    | cons x rest =>
      have hx : buf off ≠ 0 := fun hzero => hnul (by simp [← hzero, show buf off = x from hfirst])
      have hroom' : room ≠ 0 := by
        rintro rfl
        cases hroom
      have hbuf' : ∀ j < n, buf (off + 1 + j) = rest.getD j 0 := by
        intro j hj
        have := hbuf (j + 1) (Nat.succ_lt_succ hj)
        rwa [show off + (j + 1) = off + 1 + j by omega] at this
      have hlen : rest.length ≤ room - 1 := by
        rw [List.length_cons] at hroom
        omega
      obtain ⟨hbytes, hstop, hmore⟩ := ih hbuf' (fun h => hnul (List.mem_cons_of_mem x h)) hlen
      rw [if_neg hroom', if_neg hx]
      refine ⟨?_, fun h => Nat.succ_le_succ (hstop h), fun h => ?_⟩
      · rw [hbytes, List.take_succ_cons, show buf off = x from hfirst]
      · rw [List.length_cons]
        have := hmore h
        omega

theorem HoldsAt.acquire {v : Nat} {bytes : Buffer} (h : HoldsAt pool v bytes) :
    v ≠ 0 ∧ ∀ o < 32, poolAcquire pool v o = bytes o := by
  obtain ⟨page, slot, rfl, htwo, hholds⟩ := h
  refine ⟨?_, fun o ho => hholds.acquire ho⟩
  rw [vptrMake_eq hholds.slot_lt]
  omega

theorem HoldsAt.next {v i next : Nat} (h : HoldsAt pool v (nameEntry name i next)) (hnext : next < 2 ^ 64) :
    get (poolAcquire pool v) nameOffNextPtr 8 = next := by
  rw [get_congr fun j hj => h.acquire.2 _ (by rw [nameOffNextPtr]; omega)]
  exact get_nameEntry_next name i hnext

theorem HoldsAt.part {v i next : Nat} (h : HoldsAt pool v (nameEntry name i next)) (j : Nat)
    (hj : j < dataLen i) : poolAcquire pool v (dataOff i + j) = (name.drop (partStart i)).getD j 0 := by
  have hwidth : dataOff i + dataLen i ≤ 24 := by
    rw [dataOff, dataLen]
    split <;> decide
  rw [h.acquire.2 _ (by omega), nameEntry_part name _ hj]

theorem readSlots_spec (hnul : 0 ∉ name) {slots : List Nat} (hptr : ∀ v ∈ slots, v < 2 ^ 64) :
    ∀ {rounds i room : Nat}, Stored pool name i slots → name.length ≤ partStart (i + slots.length) →
      (name.drop (partStart i)).length ≤ room → room ≤ rounds →
      readSlots pool rounds i (slots.headD 0) room = name.drop (partStart i) := by
  induction slots with
  | nil =>
    intro rounds i room _ hlast _ _
    rw [List.drop_eq_nil_of_le (show name.length ≤ partStart i from hlast)]
    cases rounds with
    | zero => rfl
    | succ rounds => rw [readSlots, if_pos (.inl rfl)]
  | cons v slots ih =>
    intro rounds i room hstored hlast hlen hroom
    obtain ⟨hholds, hstored⟩ := hstored
    by_cases hzero : room = 0
    · have hnil : name.drop (partStart i) = [] := List.length_eq_zero_iff.1 (by omega)
      rw [hnil]
      cases rounds with
      | zero => rfl
      | succ rounds => rw [readSlots, if_pos (.inr hzero)]
    obtain ⟨rounds, rfl⟩ := Nat.exists_eq_add_one_of_ne_zero (show rounds ≠ 0 by omega)
    have hnext : slots.headD 0 < 2 ^ 64 := by
      cases slots with
      | nil => exact Nat.two_pow_pos 64
      | cons w slots => exact hptr w (List.mem_cons_of_mem v List.mem_cons_self)
    obtain ⟨hbytes, hstop, hmore⟩ := readSlot_spec hholds.part (fun h => hnul (List.mem_of_mem_drop h)) hlen
    rw [List.headD_cons, readSlots, if_neg (by simp [hholds.acquire.1, hzero])]
    dsimp only
    rw [hbytes, hholds.next hnext]
    split
    · rename_i h
      exact List.take_of_length_le (hstop h)
    · rename_i h
      by_cases hfull : dataLen i ≤ (name.drop (partStart i)).length
      · -- the slot is full, and the rest of the name is in the others
        have hdrop : name.drop (partStart (i + 1)) = (name.drop (partStart i)).drop (dataLen i) := by
          rw [partStart_succ, List.drop_drop]
        rw [ih (fun w hw => hptr w (List.mem_cons_of_mem v hw)) hstored
          (by rwa [List.length_cons, ← Nat.add_assoc, Nat.add_right_comm] at hlast), hdrop,
          List.take_append_drop]
        · rw [hdrop, List.length_drop, List.length_take]
          omega
        · have hpos : 0 < dataLen i := by
            rw [dataLen]
            split <;> decide
          rw [List.length_take]
          omega
      · -- the buffer is full with the end of the name
        have hroom := (hmore (by simpa using h)).resolve_left hfull
        rw [List.take_of_length_le (Nat.le_of_not_le hfull), ← hroom, Nat.sub_self]
        cases rounds <;> simp [readSlots]

end Read

/-- **Names come back.** Whatever was done to the pool before, if the pool gets the pages it needs then a
name is stored in as many slots as `nodes_write_name` returns. As long as these are not written or given
back, and whatever other names are stored, its bytes and its hash are read as they were. -/
theorem name_round_trip {pageSize : Nat} (hsize : 48 ≤ pageSize) (before : List Call)
    (hbefore : Run.AllSteps step (fun s c => c.Ok s) (newSession pageSize) before)
    {store : Pool → Option Nat × Bool}
    (hstore : ∀ pool, ∀ page ∈ (store pool).1, 2 ≤ page ∧ (pool.page page).isNone)
    {name : Name} (hname : name ≠ []) (hlength : name.length ≤ 255) (hnul : 0 ∉ name)
    (hsupplied : Supplied store name (slotsNeeded name) 0 (run (newSession pageSize) before)) :
    ∃ slots s, nodesWriteName store name (run (newSession pageSize) before) = some (slots, s) ∧
      slots.length = slotsNeeded name ∧ slots.Nodup ∧
      ((∀ v ∈ slots, v < 2 ^ 64) → ∀ after, Run.AllSteps act (Act.Ok slots) s after →
        nodesReadName (after.foldl act s).pool (slots.headD 0) 256 = name ∧
        nodesReadNameHash (after.foldl act s).pool (slots.headD 0) = (nameHash name).toNat) := by
  have hinv : Inv pageSize (run (newSession pageSize) before) :=
    Run.invariant (Inv pageSize) (fun _ _ hs hok => step_inv hsize hs hok) (newSession_inv pageSize) hbefore
  obtain ⟨⟨slots, s⟩, hwrite⟩ := Option.isSome_iff_exists.1
    (nodesWriteName_isSome hsize hstore hname hinv hsupplied)
  obtain ⟨hchained, hcount, -⟩ := nodesWriteName_chained hsize hstore hname hinv hwrite
  refine ⟨slots, s, hwrite, hcount, hchained.nodup, fun hptr after hafter => ?_⟩
  have hlast : Chained pageSize name 0 slots (after.foldl act s) :=
    Run.invariant (Chained pageSize name 0 slots) (fun _ _ hs hok => hs.act hsize hok) hchained hafter
  constructor
  · refine readSlots_spec hnul hptr hlast.stored ?_ hlength (Nat.le_refl 255)
    rw [hcount, Nat.zero_add]
    exact length_le_partStart name
  · obtain ⟨v, rest, rfl⟩ := List.exists_cons_of_length_pos (hcount ▸ slotsNeeded_pos name)
    obtain ⟨page, slot, rfl, htwo, hholds⟩ := hlast.stored.1
    have hne : vptrMake page slot ≠ 0 := by
      rw [vptrMake_eq hholds.slot_lt]
      omega
    rw [List.headD_cons, nodesReadNameHash, if_neg hne, ← get_nameEntry_hash name (rest.headD 0)]
    exact get_congr fun j hj => hholds.acquire (by omega)

instance decidableSupplied (store : Pool → Option Nat × Bool) (name : Name) :
    ∀ i next s, Decidable (Supplied store name i next s)
  | 0, _, _ => isTrue trivial
  | i + 1, next, s => by
    have := decidableSupplied store name i
    unfold Supplied
    split <;> infer_instance

def threeTaken : List Call :=
  [.alloc (some 2) true, .alloc none true, .alloc none true, .free (vptrMake 2 1)]

/-- Three slots are taken and one given back. Then seventeen letters `a` are stored in two slots, one of
them on a new page, and `bc` after them. -/
theorem name_round_trip_two_slots : ∃ slots s,
    nodesWriteName firstUnused (List.replicate 17 97) (run (newSession 112) threeTaken) = some (slots, s) ∧
      slots.length = 2 ∧ nodesReadName (act s (.writeName firstUnused [98, 99])).pool (slots.headD 0) 256 =
        List.replicate 17 97 := by
  have htaken : Run.AllSteps step (fun s c => c.Ok s) (newSession 112) threeTaken := by decide +kernel
  have hname : (List.replicate 17 97 : Name) ≠ [] := by decide
  obtain ⟨slots, s, hwrite, hlength, -, hread⟩ := name_round_trip (by decide) threeTaken htaken
    firstUnused_ok hname (by decide) (by decide) (by decide +kernel)
  have hslots : ((nodesWriteName firstUnused (List.replicate 17 97) (run (newSession 112) threeTaken)).map
      fun r => (r.1, (nodesWriteName firstUnused [98, 99] r.2).isSome)) =
        some ([vptrMake 3 0, vptrMake 2 1], true) := by
    decide +kernel
  rw [hwrite] at hslots
  obtain ⟨rfl, hother⟩ := Prod.mk.inj (Option.some.inj hslots)
  exact ⟨_, s, hwrite, hlength, (hread (by decide) [.writeName firstUnused [98, 99]]
    ⟨⟨firstUnused_ok, hother⟩, trivial⟩).1⟩

end PoolAlloc
end SphereVFS
