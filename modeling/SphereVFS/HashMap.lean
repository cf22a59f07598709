import SphereVFS.Lib.Probe
import SphereVFS.VarArrayRefine

/-!
# SphereVFS.HashMap

The hash map of `hash_map.c`: open addressing over a sparse array, with a capacity that is fixed when the
map is made. Allocation succeeds.
-/

namespace SphereVFS

open Probe

inductive SlotState where
  | empty
  | occupied
  | tombstone
deriving DecidableEq

structure HashSlot where
  key : BitVec 64
  value : BitVec 64
  state : SlotState
deriving DecidableEq

instance : Zero HashSlot := ⟨⟨0, 0, .empty⟩⟩

/-- `HashMapBase`. -/
structure HashMap where
  slots : VarArray HashSlot
  capacity : Nat
  size : Int
  tombstones : Int

namespace HashMap

/-- `hash_key_64`: FNV-1a on the bytes of the key. -/
def hashKey64 (key : BitVec 64) : BitVec 64 :=
  (List.range 8).foldl (fun h i => (h ^^^ (key >>> (8 * i) &&& 255#64)) * 1099511628211#64) 14695981039346656037#64

def hashToIndex (h : BitVec 64) (capacity : Nat) : Nat := h.toNat &&& (capacity - 1)

/-- `hash_map_base_new_cap`, with the limits of `clamp_scale_granularity`. -/
def newCap (scale granularity : Int) : Option HashMap :=
  (VarArray.newBase 24 (2 ^ (min (max granularity 1) 16).toNat)).map fun slots =>
    { slots, capacity := 2 ^ (min (max scale 1) 32).toNat, size := 0, tombstones := 0 }

/-- `hash_map_base_new`. -/
def new : Option HashMap := newCap 16 9

def scaleLoop (capTarget : Nat) : Nat → Nat → Nat
  | 0, scale => scale
  | n + 1, scale => if 2 ^ scale < capTarget ∧ scale < 20 then scaleLoop capTarget n (scale + 1) else scale

def bitLoop : Nat → Nat → Int → Int
  | 0, _, granularity => granularity
  | n + 1, c, granularity => if c = 0 then granularity else bitLoop n (c >>> 1) (granularity + 1)

/-- `hash_map_base_new_for_max_entries`. -/
def newForMaxEntries (maxEntries : Int) : Option HashMap :=
  let maxEntries := maxEntries.toNat
  let scale := if maxEntries = 0 then 4 else scaleLoop (maxEntries * 10 % 2 ^ 64) 16 4
  let granularity := if maxEntries ≤ 1 then 3 else bitLoop 64 (maxEntries - 1) 0 - 5
  newCap scale (max granularity 3)

/-- `hash_map_slot_ptr`. -/
def slotPtr (a : VarArray HashSlot) (target : Nat) : Option HashSlot :=
  if a.count ≤ target then none else a.lookup target

def next (m : HashMap) (i : Nat) : Nat := (i + 1) &&& (m.capacity - 1)

def getLoop (m : HashMap) (key : BitVec 64) : Nat → Nat → Option (BitVec 64)
  | 0, _ => none
  | n + 1, i =>
    match slotPtr m.slots i with
    | none => none
    | some s =>
      if s.state = .empty then none
      else if s.state = .occupied ∧ s.key = key then some s.value
      else getLoop m key n (m.next i)

/-- `hash_map_base_get`: what the pointer names. -/
def get (m : HashMap) (key : BitVec 64) : Option (BitVec 64) :=
  if m.capacity = 0 then none else getLoop m key m.capacity (hashToIndex (hashKey64 key) m.capacity)

/-- `hash_map_base_contains`. -/
def contains (m : HashMap) (key : BitVec 64) : Bool := (m.get key).isSome

/-- A new entry; `reused` if it takes the place of a tombstone. -/
def insertAt (m : HashMap) (key value : BitVec 64) (target : Nat) (reused : Bool) : Int × HashMap :=
  (1, { m with
    slots := (m.slots.setBase (fun _ => true) target (some ⟨key, value, .occupied⟩)).2
    size := m.size + 1
    tombstones := if reused then m.tombstones - 1 else m.tombstones })

def putLoop (m : HashMap) (key value : BitVec 64) : Nat → Nat → Option Nat → Int × HashMap
  | 0, _, _ => (-1, m)
  | n + 1, i, firstTombstone =>
    match slotPtr m.slots i with
    | none => m.insertAt key value (firstTombstone.getD i) firstTombstone.isSome
    | some s =>
      match s.state with
      | .empty => m.insertAt key value (firstTombstone.getD i) firstTombstone.isSome
      | .tombstone => putLoop m key value n (m.next i) (firstTombstone.or (some i))
      | .occupied =>
        if s.key = key then
          (0, { m with slots := m.slots.write (m.slots.resolveBase i) i { s with value } })
        else putLoop m key value n (m.next i) firstTombstone

/-- `hash_map_base_put`. -/
def put (m : HashMap) (key value : BitVec 64) : Int × HashMap :=
  if m.capacity = 0 then (-1, m)
  else putLoop m key value m.capacity (hashToIndex (hashKey64 key) m.capacity) none

def deleteAt (m : HashMap) (key : BitVec 64) (i : Nat) : Int × HashMap :=
  (1, { m with
    slots := (m.slots.setBase (fun _ => true) i (some ⟨key, 0, .tombstone⟩)).2
    size := m.size - 1
    tombstones := m.tombstones + 1 })

def deleteLoop (m : HashMap) (key : BitVec 64) : Nat → Nat → Int × HashMap
  | 0, _ => (0, m)
  | n + 1, i =>
    match slotPtr m.slots i with
    | none => (0, m)
    | some s =>
      if s.state = .empty then (0, m)
      else if s.state = .occupied ∧ s.key = key then m.deleteAt key i
      else deleteLoop m key n (m.next i)

/-- `hash_map_base_delete`. -/
def delete (m : HashMap) (key : BitVec 64) : Int × HashMap :=
  if m.capacity = 0 then (0, m) else deleteLoop m key m.capacity (hashToIndex (hashKey64 key) m.capacity)

/-- The loop of `hash_map_iter_next`: the next entry, and where the iterator stands then. -/
def iterNext (m : HashMap) : Nat → Nat → Option ((BitVec 64 × BitVec 64) × Nat)
  | 0, _ => none
  | n + 1, i =>
    match slotPtr m.slots i with
    | none => iterNext m n (i + 1)
    | some s => if s.state = .occupied then some ((s.key, s.value), i + 1) else iterNext m n (i + 1)

/-- Calls of `hash_map_iter_next` until it returns zero. -/
def iterate (m : HashMap) : Nat → Nat → List (BitVec 64 × BitVec 64)
  | 0, _ => []
  | n + 1, i =>
    match m.iterNext (m.slots.count.toNat - i) i with
    | none => []
    | some (e, i') => e :: iterate m n i'

/-! ## The cells -/

def toCell (s : HashSlot) : Cell (BitVec 64) (BitVec 64) :=
  match s.state with
  | .empty => .empty
  | .tombstone => .dead
  | .occupied => .full s.key s.value

def View (a : VarArray HashSlot) (C : Nat) (t : Nat → Cell (BitVec 64) (BitVec 64)) : Prop :=
  ∃ s, VarArray.Refines a s ∧ (∀ i, toCell (s.value i) = t i) ∧ ∀ i ∈ s.touched, i < C

section View

variable {a : VarArray HashSlot} {C i : Nat} {t : Nat → Cell (BitVec 64) (BitVec 64)}

theorem View.lookup {s : VarArray.Sparse HashSlot} (h : VarArray.Refines a s) (i : Nat) :
    slotPtr a i = none ∧ s.value i = 0 ∨ slotPtr a i = some (s.value i) ∧ a.resolveBase i ≠ 0 := by
  have hptr : slotPtr a i = a.lookup i := by
    rw [slotPtr]
    split
    · rename_i hge
      rw [VarArray.lookup, VarArray.resolveBase, if_pos hge, ite_self, if_pos rfl]
    · rfl
  rw [hptr, VarArray.lookup]
  obtain ⟨-, hlt, heq⟩ | ⟨hout, heq⟩ := h.resolve i
  · by_cases hne : a.find i = 0
    · rw [heq, if_pos hne]
      exact .inl ⟨rfl, h.holds.zero i fun hmem => (h.holds.touched i hmem).2 hne⟩
    · rw [heq, if_neg hne, Int.toNat_natCast, h.holds.value i hlt hne]
      exact .inr ⟨rfl, hne⟩
  · rw [heq, if_pos rfl]
    exact .inl ⟨rfl, h.holds.zero i hout⟩

theorem View.slot (h : View a C t) (i : Nat) :
    slotPtr a i = none ∧ t i = .empty ∨ ∃ s, slotPtr a i = some s ∧ toCell s = t i := by
  obtain ⟨s, href, hcell, -⟩ := h
  obtain ⟨heq, hzero⟩ | ⟨heq, -⟩ := View.lookup href i
  · refine .inl ⟨heq, ?_⟩
    rw [← hcell, hzero]
    rfl
  · exact .inr ⟨_, heq, hcell i⟩

theorem View.cells {s : VarArray.Sparse HashSlot} (h : ∀ i, toCell (s.value i) = t i) (i : Nat) (slot : HashSlot) :
    ∀ j, toCell (Function.update s.value i slot j) = Function.update t i (toCell slot) j := by
  intro j
  rw [Function.update_apply, Function.update_apply]
  split
  · rfl
  · exact h j

theorem View.set (h : View a C t) (hi : i < C) (hC : C ≤ 2 ^ 20) (slot : HashSlot) :
    View (a.setBase (fun _ => true) i (some slot)).2 C (Function.update t i (toCell slot)) := by
  obtain ⟨s, href, hcell, hlt⟩ := h
  refine ⟨_, href.set (fun _ => rfl) (by omega), View.cells hcell i slot, fun j hj => ?_⟩
  obtain rfl | hj := List.mem_cons.1 hj
  · exact hi
  · exact hlt j hj

theorem View.write (h : View a C t) (hi : t i ≠ .empty) (slot : HashSlot) :
    View (a.write (a.resolveBase i) i slot) C (Function.update t i (toCell slot)) := by
  obtain ⟨s, href, hcell, hlt⟩ := h
  have hvalue : s.value i ≠ 0 := by
    intro hzero
    rw [← hcell, hzero] at hi
    exact hi rfl
  obtain ⟨-, hzero⟩ | ⟨-, hne⟩ := View.lookup href i
  · exact absurd hzero hvalue
  · refine ⟨_, href.write hne fun j hj => ?_, View.cells hcell i slot, hlt⟩
    rw [Function.update_of_ne, href.holds.zero j hj]
    rintro rfl
    exact hvalue (href.holds.zero j hj)

end View

/-! ## The loops -/

section Loops

variable {m : HashMap} {scale : Nat} {t : Nat → Cell (BitVec 64) (BitVec 64)} {key value : BitVec 64} {q : Nat}

theorem View.cases (h : View m.slots m.capacity t) (i : Nat) :
    t i = .empty ∧ (slotPtr m.slots i = none ∨ ∃ k v, slotPtr m.slots i = some ⟨k, v, .empty⟩) ∨
    t i = .dead ∧ (∃ k v, slotPtr m.slots i = some ⟨k, v, .tombstone⟩) ∨
    ∃ k v, t i = .full k v ∧ slotPtr m.slots i = some ⟨k, v, .occupied⟩ := by
  obtain ⟨heq, hempty⟩ | ⟨⟨k, v, state⟩, heq, hcell⟩ := h.slot i
  · exact .inl ⟨hempty, .inl heq⟩
  · cases state with
    | empty => exact .inl ⟨hcell.symm, .inr ⟨k, v, heq⟩⟩
    | tombstone => exact .inr (.inl ⟨hcell.symm, k, v, heq⟩)
    | occupied => exact .inr (.inr ⟨k, v, hcell.symm, heq⟩)

theorem next_eq (hcap : m.capacity = 2 ^ scale) (i : Nat) : m.next i = (i + 1) % m.capacity := by
  rw [next, hcap, Nat.and_two_pow_sub_one_eq_mod]

theorem getLoop_eq (h : View m.slots m.capacity t) (hcap : m.capacity = 2 ^ scale) (n i : Nat) :
    getLoop m key n i =
      (scan (fun i => (t i).Stops key) m.capacity n i).bind fun q => (t q).entry.map Prod.snd := by
  induction n generalizing i with
  | zero => rfl
  | succ n ih =>
    rw [getLoop, scan, ih, next_eq hcap]
    obtain ⟨hcell, heq | ⟨k, v, heq⟩⟩ | ⟨hcell, k, v, heq⟩ | ⟨k, v, hcell, heq⟩ := h.cases i
    · simp [heq, hcell, Cell.Stops, Cell.entry]
    · simp [heq, hcell, Cell.Stops, Cell.entry]
    · simp [heq, hcell, Cell.Stops]
    · by_cases hk : k = key <;> simp [heq, hcell, Cell.Stops, Cell.entry, hk]

theorem deleteLoop_eq (h : View m.slots m.capacity t) (hcap : m.capacity = 2 ^ scale) (n i : Nat) :
    deleteLoop m key n i =
      (scan (fun i => (t i).Stops key) m.capacity n i).elim (0, m) fun q =>
        if (t q).entry.isSome then m.deleteAt key q else (0, m) := by
  induction n generalizing i with
  | zero => rfl
  | succ n ih =>
    rw [deleteLoop, scan, ih, next_eq hcap]
    obtain ⟨hcell, heq | ⟨k, v, heq⟩⟩ | ⟨hcell, k, v, heq⟩ | ⟨k, v, hcell, heq⟩ := h.cases i
    · simp [heq, hcell, Cell.Stops, Cell.entry]
    · simp [heq, hcell, Cell.Stops, Cell.entry]
    · simp [heq, hcell, Cell.Stops]
    · by_cases hk : k = key <;> simp [heq, hcell, Cell.Stops, Cell.entry, hk]

theorem putLoop_none (h : View m.slots m.capacity t) (hcap : m.capacity = 2 ^ scale) (n i : Nat) (first : Option Nat)
    (hscan : scan (fun i => (t i).Stops key) m.capacity n i = none) :
    putLoop m key value n i first = (-1, m) := by
  induction n generalizing i first with
  | zero => rfl
  | succ n ih =>
    rw [scan] at hscan
    split_ifs at hscan with hstop
    rw [← next_eq hcap] at hscan
    rw [putLoop]
    obtain ⟨hcell, -⟩ | ⟨hcell, k, v, heq⟩ | ⟨k, v, hcell, heq⟩ := h.cases i
    · exact absurd (by rw [hcell]; trivial) hstop
    · simp only [heq]
      exact ih _ _ hscan
    · rw [hcell] at hstop
      simp only [heq, if_neg (show ¬ k = key from hstop)]
      exact ih _ _ hscan

theorem putLoop_found (h : View m.slots m.capacity t) (hcap : m.capacity = 2 ^ scale) (n i : Nat) (first : Option Nat)
    (hscan : scan (fun i => (t i).Stops key) m.capacity n i = some q) {w : BitVec 64} (hq : t q = .full key w) :
    putLoop m key value n i first =
      (0, { m with slots := m.slots.write (m.slots.resolveBase q) q ⟨key, value, .occupied⟩ }) := by
  induction n generalizing i first with
  | zero => cases hscan
  | succ n ih =>
    rw [scan] at hscan
    rw [putLoop]
    obtain ⟨hcell, -⟩ | ⟨hcell, k, v, heq⟩ | ⟨k, v, hcell, heq⟩ := h.cases i
    · rw [if_pos (by rw [hcell]; trivial)] at hscan
      cases hscan
      rw [hq] at hcell
      cases hcell
    · rw [if_neg (by rw [hcell]; exact id), ← next_eq hcap] at hscan
      simp only [heq]
      exact ih _ _ hscan
    · by_cases hk : k = key
      · rw [if_pos (by rw [hcell]; exact hk)] at hscan
        cases hscan
        simp [heq, hk]
      · rw [if_neg (by rw [hcell]; exact hk), ← next_eq hcap] at hscan
        simp only [heq, if_neg hk]
        exact ih _ _ hscan

/-- The search ends at an empty cell: the entry goes to the first cell on the way that is dead or empty. -/
theorem putLoop_empty (h : View m.slots m.capacity t) (hcap : m.capacity = 2 ^ scale) (value : BitVec 64) (n i : Nat)
    (hscan : scan (fun i => (t i).Stops key) m.capacity n i = some q) (hq : t q = .empty) :
    (∀ r, putLoop m key value n i (some r) = m.insertAt key value r true) ∧
    ∃ r, scan (fun i => (t i).Opens key) m.capacity n i = some r ∧
      putLoop m key value n i none = m.insertAt key value r (t r).tomb.isSome := by
  induction n generalizing i with
  | zero => cases hscan
  | succ n ih =>
    rw [scan] at hscan
    obtain ⟨hcell, heq⟩ | ⟨hcell, k, v, heq⟩ | ⟨k, v, hcell, heq⟩ := h.cases i
    · refine ⟨fun r => ?_, i, by rw [scan, if_pos (by rw [hcell]; trivial)], ?_⟩
      · rw [putLoop]
        obtain heq | ⟨k, v, heq⟩ := heq <;> simp [heq]
      · rw [putLoop, hcell]
        obtain heq | ⟨k, v, heq⟩ := heq <;> simp [heq, Cell.tomb]
    · rw [if_neg (by rw [hcell]; exact id), ← next_eq hcap] at hscan
      obtain ⟨hreuse, -⟩ := ih _ hscan
      refine ⟨fun r => ?_, i, by rw [scan, if_pos (by rw [hcell]; trivial)], ?_⟩
      · rw [putLoop]
        simp only [heq]
        exact hreuse r
      · rw [putLoop, hcell]
        simp only [heq]
        exact hreuse i
    · by_cases hk : k = key
      · rw [if_pos (by rw [hcell]; exact hk)] at hscan
        cases hscan
        rw [hq] at hcell
        cases hcell
      · rw [if_neg (by rw [hcell]; exact hk), ← next_eq hcap] at hscan
        obtain ⟨hreuse, r, hr, hfresh⟩ := ih _ hscan
        refine ⟨fun r => ?_, r, ?_, ?_⟩
        · rw [putLoop]
          simp only [heq, if_neg hk]
          exact hreuse r
        · rw [scan, if_neg (by rw [hcell]; exact hk), ← next_eq hcap, hr]
        · rw [putLoop]
          simp only [heq, if_neg hk]
          exact hfresh

end Loops

/-! ## A finite map -/

structure Sound (m : HashMap) (t : Nat → Cell (BitVec 64) (BitVec 64)) : Prop where
  capacity : ∃ scale ≤ 20, m.capacity = 2 ^ scale
  view : View m.slots m.capacity t
  table : Table m.capacity (fun k => hashToIndex (hashKey64 k) m.capacity) t
  size : m.size = (entries m.capacity t).length
  tombstones : m.tombstones = (tombs m.capacity t).length

section Map

variable {m : HashMap} {t : Nat → Cell (BitVec 64) (BitVec 64)} {M : BitVec 64 → Option (BitVec 64)}
  {key value : BitVec 64}

theorem Sound.pos (h : Sound m t) : m.capacity ≠ 0 ∧ m.capacity ≤ 2 ^ 20 := by
  obtain ⟨scale, hle, hcap⟩ := h.capacity
  rw [hcap]
  exact ⟨Nat.ne_of_gt (Nat.two_pow_pos scale), Nat.pow_le_pow_right Nat.two_pos hle⟩

theorem Sound.change (h : Sound m t) (hM : Maps t M) {q : Nat} {c : Cell (BitVec 64) (BitVec 64)} {m' : HashMap}
    (hq : q < m.capacity) (hcap : m'.capacity = m.capacity)
    (hview : View m'.slots m.capacity (Function.update t q c))
    (htable : Table m.capacity (fun k => hashToIndex (hashKey64 k) m.capacity) (Function.update t q c))
    (hsize : m'.size + (t q).entry.toList.length = m.size + c.entry.toList.length)
    (htombs : m'.tombstones + (t q).tomb.toList.length = m.tombstones + c.tomb.toList.length)
    (honly : ∀ i w, i ≠ q → t i ≠ .full key w) (hold : ∀ e, (t q).entry = some e → e.1 = key)
    (hnew : ∀ e, c.entry = some e → e.1 = key) :
    Sound m' (Function.update t q c) ∧
      Maps (Function.update t q c) (Function.update M key (c.entry.map Prod.snd)) := by
  have hentries := length_update Cell.entry t hq c
  have hdead := length_update Cell.tomb t hq c
  have hs := h.size
  have ht := h.tombstones
  refine ⟨⟨by rw [hcap]; exact h.capacity, by rw [hcap]; exact hview, by rw [hcap]; exact htable, ?_, ?_⟩,
    hM.update honly hold hnew⟩
  · rw [hcap]
    simp only [entries] at hs ⊢
    omega
  · rw [hcap]
    simp only [tombs] at ht ⊢
    omega

theorem Maps.eq_none (hM : Maps t M) (h : ∀ i v, t i ≠ .full key v) : M key = none := by
  cases hkey : M key with
  | none => rfl
  | some v =>
    obtain ⟨i, hi⟩ := (hM key v).1 hkey
    exact absurd hi (h i v)

theorem Sound.get (h : Sound m t) (hM : Maps t M) (key : BitVec 64) : m.get key = M key := by
  obtain ⟨scale, -, hcap⟩ := h.capacity
  rw [HashMap.get, if_neg h.pos.1, getLoop_eq h.view hcap]
  obtain ⟨q, v, hscan, hq⟩ | ⟨hout, ⟨q, hscan, -, hq⟩ | ⟨hscan, -⟩⟩ := h.table.search key
  · rw [hscan, (hM key v).2 ⟨q, hq⟩]
    simp [hq, Cell.entry]
  · rw [hscan, Maps.eq_none hM hout]
    simp [hq, Cell.entry]
  · rw [hscan, Maps.eq_none hM hout]
    rfl

theorem Sound.delete (h : Sound m t) (hM : Maps t M) (key : BitVec 64) :
    (m.delete key).1 = (if (M key).isSome then 1 else 0) ∧
      ∃ t', Sound (m.delete key).2 t' ∧ Maps t' (Function.update M key none) := by
  obtain ⟨scale, -, hcap⟩ := h.capacity
  have hgone (hout : ∀ i v, t i ≠ .full key v) : Function.update M key none = M := by
    rw [← Maps.eq_none hM hout, Function.update_eq_self]
  rw [HashMap.delete, if_neg h.pos.1, deleteLoop_eq h.view hcap]
  obtain ⟨q, v, hscan, hq⟩ | ⟨hout, ⟨q, hscan, -, hq⟩ | ⟨hscan, -⟩⟩ := h.table.search key
  · have hlt := h.table.lt (q := q) (by simp [hq])
    have honly : ∀ i w, i ≠ q → t i ≠ .full key w := fun i w hne hi => hne (h.table.unique i q key w v hi hq)
    rw [hscan, (hM key v).2 ⟨q, hq⟩]
    simp only [Option.elim_some, hq, Cell.entry, Option.isSome_some, if_true]
    refine ⟨rfl, _, h.change (c := .dead) hM hlt rfl (h.view.set hlt h.pos.2 _)
      (h.table.update hlt (by simp) (by simp)) ?_ ?_
      honly ?_ ?_⟩
    · simp [deleteAt, hq, Cell.entry]
    · simp [deleteAt, hq, Cell.tomb]
    · rintro _ he
      rw [hq] at he
      cases he
      rfl
    · rintro _ ⟨⟩
  · rw [hscan, hgone hout, Maps.eq_none hM hout]
    simp only [Option.elim_some, hq, Cell.entry, Option.isSome_none, Bool.false_eq_true, if_false]
    exact ⟨trivial, t, h, hM⟩
  · rw [hscan, hgone hout, Maps.eq_none hM hout]
    exact ⟨rfl, t, h, hM⟩

theorem Sound.load (h : Sound m t) : m.size + m.tombstones ≤ m.capacity ∧
    (m.size + m.tombstones = m.capacity ↔ ∀ i < m.capacity, t i ≠ .empty) := by
  have := load_eq_iff m.capacity t
  rw [h.size, h.tombstones, ← this.2]
  omega

theorem Sound.put (h : Sound m t) (hM : Maps t M) (key value : BitVec 64) :
    m.put key value = (-1, m) ∧ M key = none ∧ m.size + m.tombstones = m.capacity ∨
    (m.put key value).1 = (if (M key).isSome then 0 else 1) ∧
      ((M key).isSome ∨ m.size + m.tombstones < m.capacity) ∧
      ∃ t', Sound (m.put key value).2 t' ∧ Maps t' (Function.update M key (some value)) := by
  obtain ⟨scale, -, hcap⟩ := h.capacity
  rw [HashMap.put, if_neg h.pos.1]
  obtain ⟨q, v, hscan, hq⟩ | ⟨hout, ⟨q, hscan, hlt, hq⟩ | ⟨hscan, hfull⟩⟩ := h.table.search key
  · have hlt := h.table.lt (q := q) (by simp [hq])
    have honly : ∀ i w, i ≠ q → t i ≠ .full key w := fun i w hne hi => hne (h.table.unique i q key w v hi hq)
    refine .inr ?_
    rw [putLoop_found h.view hcap _ _ _ hscan hq, (hM key v).2 ⟨q, hq⟩]
    refine ⟨rfl, .inl rfl, _, h.change (c := .full key value) hM hlt rfl (h.view.write (by simp [hq]) _)
      (h.table.update hlt (by simp) ?_) ?_ ?_ honly ?_ ?_⟩
    · rintro _ _ ⟨⟩
      refine ⟨honly, fun j hj heq => h.table.path key v j hj ?_⟩
      rw [heq, hq]
    · simp [hq, Cell.entry]
    · simp [hq, Cell.tomb]
    · rintro _ he
      rw [hq] at he
      cases he
      rfl
    · rintro _ ⟨⟩
      rfl
  · obtain ⟨-, r, hr, heq⟩ := putLoop_empty h.view hcap value _ _ hscan hq
    obtain ⟨hrlt, hfree, htable⟩ := h.table.insert hout hr value
    refine .inr ?_
    rw [heq, Maps.eq_none hM hout]
    refine ⟨rfl, .inr ?_, _, h.change (c := .full key value) hM hrlt rfl (h.view.set hrlt h.pos.2 _) htable ?_ ?_
      (fun i w _ => hout i w) ?_ ?_⟩
    · exact lt_of_le_of_ne h.load.1 fun hall => h.load.2.1 hall q hlt hq
    · rw [hfree]
      exact Int.add_zero _
    · cases t r <;> simp [insertAt, Cell.tomb]
    · simp [hfree]
    · rintro _ ⟨⟩
      rfl
  · refine .inl ⟨putLoop_none h.view hcap _ _ _ hscan, Maps.eq_none hM hout, h.load.2.2 hfull⟩

theorem iterNext_succ (h : View m.slots m.capacity t) (n i : Nat) :
    (t i).entry = none ∧ m.iterNext (n + 1) i = m.iterNext n (i + 1) ∨
    ∃ e, (t i).entry = some e ∧ m.iterNext (n + 1) i = some (e, i + 1) := by
  rw [iterNext]
  obtain ⟨hcell, heq | ⟨k, v, heq⟩⟩ | ⟨hcell, k, v, heq⟩ | ⟨k, v, hcell, heq⟩ := h.cases i <;>
    simp [hcell, heq, Cell.entry]

theorem iterNext_spec (h : View m.slots m.capacity t) {f : Nat → Option (BitVec 64 × BitVec 64)}
    (hf : ∀ i, f i = (t i).entry) (n i : Nat) :
    m.iterNext n i = none ∧ (List.range' i n).filterMap f = [] ∨
    ∃ e i', m.iterNext n i = some (e, i') ∧ i < i' ∧ i' ≤ i + n ∧
      (List.range' i n).filterMap f = e :: (List.range' i' (i + n - i')).filterMap f := by
  induction n generalizing i with
  | zero => exact .inl ⟨rfl, rfl⟩
  | succ n ih =>
    rw [List.range'_succ]
    obtain ⟨hcell, heq⟩ | ⟨e, hcell, heq⟩ := iterNext_succ h n i
    · rw [List.filterMap_cons_none ((hf i).trans hcell), heq]
      obtain hnone | ⟨e, i', hsome, hlt, hle, hlist⟩ := ih (i + 1)
      · exact .inl hnone
      · rw [Nat.add_right_comm, Nat.add_assoc] at hle hlist
        exact .inr ⟨e, i', hsome, by omega, hle, hlist⟩
    · refine .inr ⟨e, i + 1, heq, Nat.lt_succ_self i, by omega, ?_⟩
      rw [List.filterMap_cons_some ((hf i).trans hcell), show i + (n + 1) - (i + 1) = n by omega]

theorem iterate_eq (h : View m.slots m.capacity t) {f : Nat → Option (BitVec 64 × BitVec 64)}
    (hf : ∀ i, f i = (t i).entry) (n i : Nat) (hn : m.slots.count.toNat - i < n) :
    m.iterate n i = (List.range' i (m.slots.count.toNat - i)).filterMap f := by
  induction n generalizing i with
  | zero => cases hn
  | succ n ih =>
    rw [iterate]
    obtain ⟨hnone, hlist⟩ | ⟨e, i', hsome, hlt, hle, hlist⟩ := iterNext_spec h hf (m.slots.count.toNat - i) i
    · rw [hnone, hlist]
    · rw [hsome, hlist]
      simp only
      rw [ih i' (by omega), show i + (m.slots.count.toNat - i) - i' = m.slots.count.toNat - i' by omega]

theorem Sound.iterate (h : Sound m t) : m.iterate (m.slots.count.toNat + 1) 0 = entries m.capacity t := by
  rw [iterate_eq h.view (fun _ => rfl) _ _ (by omega), Nat.sub_zero, ← List.range_eq_range', entries]
  obtain ⟨s, href, hcell, hlt⟩ := h.view
  have hcount : m.slots.count.toNat = s.count := by rw [href.count, Int.toNat_natCast]
  have hle : s.count ≤ m.capacity := by
    by_contra hgt
    obtain ⟨j, hj, hle⟩ := VarArray.Sparse.exists_ge (Nat.lt_of_not_le hgt)
    exact absurd (hlt j hj) (Nat.not_lt.2 hle)
  obtain ⟨d, hd⟩ := Nat.exists_eq_add_of_le hle
  rw [hcount, hd, List.range_add, List.filterMap_append, List.self_eq_append_right, List.filterMap_eq_nil_iff]
  intro i hi
  obtain ⟨j, -, rfl⟩ := List.mem_map.1 hi
  have hout : s.count + j ∉ s.touched := fun hmem => absurd (VarArray.Sparse.lt_count hmem) (by omega)
  rw [← hcell, href.holds.zero _ hout]
  rfl

end Map

/-! ## Runs -/

inductive Op where
  | put (key value : BitVec 64)
  | get (key : BitVec 64)
  | delete (key : BitVec 64)

/-- A call on the hash map and on a finite map; a put that fails does not count. -/
def apply (s : HashMap × (BitVec 64 → Option (BitVec 64))) : Op → HashMap × (BitVec 64 → Option (BitVec 64))
  | .put key value =>
    ((s.1.put key value).2, if (s.1.put key value).1 = -1 then s.2 else Function.update s.2 key (some value))
  | .get _ => s
  | .delete key => ((s.1.delete key).2, Function.update s.2 key none)

theorem scaleLoop_le (capTarget n : Nat) {scale : Nat} (h : scale ≤ 20) : scaleLoop capTarget n scale ≤ 20 := by
  induction n generalizing scale with
  | zero => exact h
  | succ n ih =>
    rw [scaleLoop]
    split
    · rename_i hlow
      exact ih hlow.2
    · exact h

theorem newCap_sound {scale granularity : Int} (hscale : scale ≤ 20) {m : HashMap}
    (h : newCap scale granularity = some m) : Sound m fun _ => .empty := by
  obtain ⟨slots, hslots, rfl⟩ := Option.map_eq_some_iff.1 h
  obtain ⟨hholds, hcount⟩ := VarArray.newBase_holds hslots
  have hpos : 0 < 2 ^ (min (max scale 1) 32).toNat := Nat.two_pow_pos _
  refine ⟨⟨_, by omega, rfl⟩,
    ⟨_, ⟨hholds, hcount, Nat.zero_le _⟩, fun _ => rfl, fun i hi => absurd hi List.not_mem_nil⟩,
    ⟨fun k => ?_, fun _ _ => rfl, nofun, nofun⟩, ?_, ?_⟩
  · rw [hashToIndex, Nat.and_two_pow_sub_one_eq_mod]
    exact Nat.mod_lt _ hpos
  · simp [entries, Cell.entry]
  · simp [tombs, Cell.tomb]

theorem new_sound {m : HashMap} (h : new = some m ∨ ∃ n, newForMaxEntries n = some m) :
    Sound m fun _ => .empty := by
  obtain h | ⟨n, h⟩ := h
  · exact newCap_sound (by decide) h
  · refine newCap_sound ?_ h
    split
    · decide
    · exact_mod_cast scaleLoop_le _ 16 (by decide)

theorem Sound.run (ops : List Op) {s : HashMap × (BitVec 64 → Option (BitVec 64))}
    (h : ∃ t, Sound s.1 t ∧ Maps t s.2) : ∃ t, Sound (ops.foldl apply s).1 t ∧ Maps t (ops.foldl apply s).2 := by
  induction ops generalizing s with
  | nil => exact h
  | cons op ops ih =>
    refine ih ?_
    obtain ⟨t, hsound, hmaps⟩ := h
    cases op with
    | put key value =>
      rw [apply]
      obtain ⟨heq, -⟩ | ⟨hok, -, hput⟩ := hsound.put hmaps key value
      · rw [heq, if_pos rfl]
        exact ⟨t, hsound, hmaps⟩
      · have hne : (s.1.put key value).1 ≠ -1 := by
          rw [hok]
          split <;> decide
        rw [if_neg hne]
        exact hput
    | get key => exact ⟨t, hsound, hmaps⟩
    | delete key => exact (hsound.delete hmaps key).2

theorem run_sound {m₀ : HashMap} (hnew : new = some m₀ ∨ ∃ n, newForMaxEntries n = some m₀) {ops : List Op}
    {m : HashMap} {M : BitVec 64 → Option (BitVec 64)} (hrun : ops.foldl apply (m₀, fun _ => none) = (m, M)) :
    ∃ t, Sound m t ∧ Maps t M := by
  have h := Sound.run ops (s := (m₀, fun _ => none)) ⟨_, new_sound hnew, fun _ _ => ⟨nofun, nofun⟩⟩
  rwa [hrun] at h

/-- Hash map refinement: the results, the size and the iteration are those of a finite map. -/
theorem hashMap_refines {m₀ : HashMap} (hnew : new = some m₀ ∨ ∃ n, newForMaxEntries n = some m₀) (ops : List Op)
    {m : HashMap} {M : BitVec 64 → Option (BitVec 64)} (hrun : ops.foldl apply (m₀, fun _ => none) = (m, M)) :
    (∀ key, m.get key = M key) ∧ (∀ key, m.contains key = (M key).isSome) ∧
    (∀ key value, (m.put key value).1 = -1 ∨ (m.put key value).1 = if (M key).isSome then 0 else 1) ∧
    (∀ key, (m.delete key).1 = if (M key).isSome then 1 else 0) ∧
    ∃ l, m.iterate (m.slots.count.toNat + 1) 0 = l ∧ (l.map Prod.fst).Nodup ∧
      (∀ key value, (key, value) ∈ l ↔ M key = some value) ∧ m.size = l.length := by
  obtain ⟨t, hsound, hmaps⟩ := run_sound hnew hrun
  refine ⟨hsound.get hmaps, fun key => by rw [contains, hsound.get hmaps], fun key value => ?_,
    fun key => (hsound.delete hmaps key).1, _, hsound.iterate, hsound.table.nodup_entries, fun key value => ?_,
    hsound.size⟩
  · obtain ⟨heq, -⟩ | ⟨hok, -⟩ := hsound.put hmaps key value
    · exact .inl (by rw [heq])
    · exact .inr hok
  · rw [hsound.table.mem_entries, hmaps]

def collisionOps : List Op := [.put 0 7, .put 16 8, .delete 0]

theorem hashMap_refines_collision :
    ∃ m₀ m M, newForMaxEntries 1 = some m₀ ∧ collisionOps.foldl apply (m₀, fun _ => none) = (m, M) ∧
      m.get 16 = some 8 ∧ m.contains 0 = false := by
  have hmap : (newForMaxEntries 1).map (fun m₀ =>
      ((collisionOps.foldl apply (m₀, fun _ => none)).2 16, (collisionOps.foldl apply (m₀, fun _ => none)).2 0)) =
        some (some 8, none) := by
    decide +kernel
  obtain ⟨m₀, hnew⟩ : ∃ m₀, newForMaxEntries 1 = some m₀ := ⟨_, rfl⟩
  obtain ⟨⟨m, M⟩, hrun⟩ : ∃ s, collisionOps.foldl apply (m₀, fun _ => none) = s := ⟨_, rfl⟩
  simp only [hnew, hrun, Option.map_some, Option.some.injEq, Prod.mk.injEq] at hmap
  obtain ⟨hget, hcontains, -⟩ := hashMap_refines (.inr ⟨1, hnew⟩) collisionOps hrun
  exact ⟨m₀, m, M, hnew, hrun, by rw [hget, hmap.1], by rw [hcontains, hmap.2]; rfl⟩

/-- Sixteen keys of different buckets, one after the other put and deleted. -/
def tombstoneOps : List Op := (List.range 16).flatMap fun k => [.put k 0, .delete k]

/-- A map made for one key has a slot for each of them; then a put finds no empty slot and fails. -/
theorem put_fails_among_tombstones :
    (newForMaxEntries 1).map (fun m₀ =>
      let m := (tombstoneOps.foldl apply (m₀, fun _ => none)).1
      (m.capacity, m.size, m.tombstones, (m.put 16 0).1)) = some (16, 0, 16, -1) := by
  decide +kernel

/-- A put succeeds when the key is there or the entries and the tombstones leave a slot empty. -/
theorem put_succeeds_iff {maxEntries : Int} {m₀ : HashMap} (hnew : newForMaxEntries maxEntries = some m₀)
    (ops : List Op) {m : HashMap} {M : BitVec 64 → Option (BitVec 64)}
    (hrun : ops.foldl apply (m₀, fun _ => none) = (m, M)) (key value : BitVec 64) :
    (m.put key value).1 ≠ -1 ↔ m.contains key = true ∨ m.size + m.tombstones < m.capacity := by
  obtain ⟨t, hsound, hmaps⟩ := run_sound (.inr ⟨maxEntries, hnew⟩) hrun
  rw [contains, hsound.get hmaps]
  obtain ⟨heq, hnone, hfull⟩ | ⟨hok, hroom, -⟩ := hsound.put hmaps key value
  · rw [heq, hnone, hfull]
    simp
  · refine iff_of_true ?_ hroom
    rw [hok]
    split <;> decide

theorem put_succeeds_with_room :
    ∃ m₀ m M, newForMaxEntries 1 = some m₀ ∧ collisionOps.foldl apply (m₀, fun _ => none) = (m, M) ∧
      (m.put 32 9).1 ≠ -1 := by
  have hroom : (newForMaxEntries 1).map (fun m₀ =>
      let m := (collisionOps.foldl apply (m₀, fun _ => none)).1
      decide (m.size + m.tombstones < m.capacity)) = some true := by
    decide +kernel
  obtain ⟨m₀, hnew⟩ : ∃ m₀, newForMaxEntries 1 = some m₀ := ⟨_, rfl⟩
  obtain ⟨⟨m, M⟩, hrun⟩ : ∃ s, collisionOps.foldl apply (m₀, fun _ => none) = s := ⟨_, rfl⟩
  simp only [hnew, hrun, Option.map_some, Option.some.injEq, decide_eq_true_eq] at hroom
  exact ⟨m₀, m, M, hnew, hrun, (put_succeeds_iff hnew collisionOps hrun 32 9).2 (.inr hroom)⟩

end HashMap
end SphereVFS
