import SphereVFS.State
import SphereVFS.Lib.Radix
import Mathlib.Tactic.Ring

/-!
# SphereVFS.RadixIndex

The radix index of a directory as `dircontentindex_insert`, `dircontentindex_remove` and
`dircontentindex_lookup` build and read it: sixteen levels, one per nibble of the name's hash, most
significant first. The leaf does not depend on the last nibble, so the leaf map of `DirNode` is
what the tree stands for: both give the same links after the same operations (`represents_treeOf`).
-/

namespace SphereVFS

/-- `RADIX_TREE_MAX_LEVELS`. -/
def radixLevels : Nat := 16

/-- `dircontentindex_extract_nibble`. -/
def extractNibble (hash : UInt64) (level : Nat) : Nat :=
  ((hash >>> (60 - level * 4).toUInt64) &&& 0xF).toNat

/-- The nibbles of a hash, in the order the levels use them. -/
def nibbles (hash : UInt64) : List Nat := (List.range radixLevels).map (extractNibble hash)

/-- A tree of `DirContentIndex` nodes over `DirContentLink` lists; `none` is a null root. -/
abbrev IndexTree := Option (Radix.Tree Nat VPtr)

/-- `dircontentindex_lookup`: the link list of the hash's leaf. -/
def dircontentindexLookup (root : IndexTree) (hash : UInt64) : List VPtr :=
  match root with
  | none => []
  | some t => Radix.lookup (nibbles hash) t

def dircontentindexInsert (root : IndexTree) (hash : UInt64) (slot : VPtr) : IndexTree :=
  if slot = 0 then root
  else some (Radix.insert slot (nibbles hash) (root.getD (.internal [])))

/-- `dircontentindex_remove`: zeroes the links to `slot` in the hash's leaf. -/
def dircontentindexRemove (root : IndexTree) (hash : UInt64) (slot : VPtr) : IndexTree :=
  if slot = 0 then root
  else root.map (Radix.modify (List.map fun l => if l = slot then 0 else l) (nibbles hash))

/-! ## Nibbles -/

theorem extractNibble_eq (hash : UInt64) {level : Nat} (h : level < 16) :
    extractNibble hash level = hash.toNat / 16 ^ (15 - level) % 16 := by
  have hshift : (60 - level * 4).toUInt64.toNat % 64 = 4 * (15 - level) := by
    rw [Nat.toUInt64_eq, UInt64.toNat_ofNat']
    omega
  have hpow : (2 : Nat) ^ (4 * (15 - level)) = 16 ^ (15 - level) := by rw [pow_mul]; rfl
  rw [extractNibble, UInt64.toNat_and, UInt64.toNat_shiftRight, hshift, Nat.shiftRight_eq_div_pow,
    hpow]
  exact Nat.and_two_pow_sub_one_eq_mod _ 4

theorem mod_eq_of_digits {x y : Nat} (k : Nat) (h : ∀ i < k, x / 16 ^ i % 16 = y / 16 ^ i % 16) :
    x % 16 ^ k = y % 16 ^ k := by
  induction k with
  | zero => simp [Nat.mod_one]
  | succ k ih =>
    rw [Nat.mod_pow_succ, Nat.mod_pow_succ, h k (by omega), ih fun i hi => h i (by omega)]

theorem nibbles_dropLast (h g : UInt64) :
    (nibbles h).dropLast = (nibbles g).dropLast ↔ h.toNat / 16 = g.toNat / 16 := by
  have hdrop : ∀ f : UInt64, (nibbles f).dropLast = (List.range 15).map (extractNibble f) :=
    fun f => rfl
  have hdigit : ∀ f : UInt64, ∀ i < 15, extractNibble f (14 - i) = f.toNat / 16 / 16 ^ i % 16 := by
    intro f i hi
    rw [extractNibble_eq f (by omega), Nat.div_div_eq_div_mul, mul_comm, ← pow_succ]
    congr 3
    omega
  rw [hdrop, hdrop]
  constructor
  · intro heq
    have hsmall : ∀ f : UInt64, f.toNat / 16 % 16 ^ 15 = f.toNat / 16 := fun f =>
      Nat.mod_eq_of_lt (by have := f.toNat_lt; omega)
    rw [← hsmall h, ← hsmall g]
    refine mod_eq_of_digits 15 fun i hi => ?_
    rw [← hdigit h i hi, ← hdigit g i hi]
    exact List.map_inj_left.1 heq (14 - i) (List.mem_range.2 (by omega))
  · intro heq
    refine List.map_inj_left.2 fun level hlevel => ?_
    have hlt := List.mem_range.1 hlevel
    have hd := hdigit h (14 - level) (by omega)
    have hd' := hdigit g (14 - level) (by omega)
    rw [show 14 - (14 - level) = level by omega] at hd hd'
    rw [hd, hd', heq]

@[simp] theorem length_nibbles (hash : UInt64) : (nibbles hash).length = 16 := by
  simp [nibbles, radixLevels]

theorem nibbles_ne_nil (hash : UInt64) : nibbles hash ≠ [] := by
  simp [← List.length_eq_zero_iff]

/-! ## The tree and the leaf map -/

structure Represents (root : IndexTree) (ix : DirIndex) : Prop where
  depth : ∀ t ∈ root, Radix.Depth 16 t
  lookup : ∀ hash, dircontentindexLookup root hash = ix (hash.toNat / 16)

theorem represents_empty : Represents none fun _ => [] := ⟨by simp, fun _ => rfl⟩

theorem Represents.insert {root : IndexTree} {ix : DirIndex} (h : Represents root ix) (name : Name)
    {slot : VPtr} (hslot : slot ≠ 0) :
    Represents (dircontentindexInsert root (nameHash name) slot) (indexInsert ix name slot) := by
  -- a null root stands for an inner node without children
  have hdepth : Radix.Depth (nibbles (nameHash name)).length (root.getD (.internal [])) := by
    rw [length_nibbles]
    cases root with
    | none => exact ⟨[], rfl, by simp⟩
    | some t => exact h.depth t rfl
  have hlookup : ∀ hash, Radix.lookup (nibbles hash) (root.getD (.internal [])) =
      ix (hash.toNat / 16) := by
    intro hash
    rw [← h.lookup hash]
    cases root with
    | none => exact Radix.lookup_empty _
    | some t => rfl
  rw [dircontentindexInsert, if_neg hslot]
  constructor
  · rintro t ht
    obtain rfl := Option.some.inj ht
    simpa using Radix.depth_insert slot _ hdepth
  · intro hash
    rw [dircontentindexLookup, Radix.lookup_insert slot _ (nibbles_ne_nil _) (by simp) hdepth,
      hlookup, indexInsert, Function.update_apply, leafOf]
    by_cases heq : hash.toNat / 16 = (nameHash name).toNat / 16
    · rw [if_pos ((nibbles_dropLast _ _).2 heq), if_pos heq, heq]
    · rw [if_neg fun hn => heq ((nibbles_dropLast _ _).1 hn), if_neg heq]

theorem Represents.remove {root : IndexTree} {ix : DirIndex} (h : Represents root ix) (name : Name)
    (slot : VPtr) :
    Represents (dircontentindexRemove root (nameHash name) slot) (indexRemove ix name slot) := by
  rw [dircontentindexRemove]
  split
  · -- nothing is removed, and zeroing the zeroed links changes nothing
    rename_i hslot
    have hzero : ∀ l ∈ ix (leafOf name), (if l = 0 then 0 else l) = l := by
      intro l _
      split <;> simp_all
    have hsame : indexRemove ix name slot = ix := by
      rw [indexRemove, hslot, List.map_congr_left hzero, List.map_id', Function.update_eq_self]
    rwa [hsame]
  · constructor
    · intro t ht
      obtain ⟨t₀, ht₀, rfl⟩ := Option.map_eq_some_iff.1 ht
      simpa using Radix.depth_modify _ (nibbles (nameHash name)) (t := t₀)
        (by simpa using h.depth t₀ ht₀)
    · intro hash
      rw [indexRemove, Function.update_apply, leafOf]
      cases root with
      | none =>
        have hempty : ∀ hash : UInt64, ix (hash.toNat / 16) = [] := fun hash => (h.lookup hash).symm
        by_cases heq : hash.toNat / 16 = (nameHash name).toNat / 16
        · rw [if_pos heq, hempty]
          rfl
        · rw [if_neg heq, hempty]
          rfl
      | some t =>
        have ht := Radix.lookup_modify (f := List.map fun l => if l = slot then 0 else l) rfl
          (nibbles (nameHash name)) (nibbles_ne_nil _) (p := nibbles hash) (by simp)
          (by simpa using h.depth t rfl)
        have hold : Radix.lookup (nibbles hash) t = ix (hash.toNat / 16) := h.lookup hash
        rw [Option.map_some, dircontentindexLookup, ht, hold]
        by_cases heq : hash.toNat / 16 = (nameHash name).toNat / 16
        · rw [if_pos ((nibbles_dropLast _ _).2 heq), if_pos heq, heq]
        · rw [if_neg fun hn => heq ((nibbles_dropLast _ _).1 hn), if_neg heq]

/-! ## Histories of an index -/

inductive IndexOp where
  | insert (name : Name) (slot : VPtr)
  | remove (name : Name) (slot : VPtr)

def IndexOp.tree (root : IndexTree) : IndexOp → IndexTree
  | .insert name slot => dircontentindexInsert root (nameHash name) slot
  | .remove name slot => dircontentindexRemove root (nameHash name) slot

def IndexOp.leaves (ix : DirIndex) : IndexOp → DirIndex
  | .insert name slot => indexInsert ix name slot
  | .remove name slot => indexRemove ix name slot

def IndexOp.Links (P : VPtr → Prop) : IndexOp → Prop
  | .insert _ slot => P slot
  | .remove _ _ => True

def treeOf (calls : List IndexOp) : IndexTree := calls.foldl IndexOp.tree none

def leavesOf (calls : List IndexOp) : DirIndex := calls.foldl IndexOp.leaves fun _ => []

theorem IndexOp.represents {root : IndexTree} {ix : DirIndex} (h : Represents root ix) {call : IndexOp}
    (hcall : call.Links (· ≠ 0)) : Represents (call.tree root) (call.leaves ix) := by
  cases call with
  | insert name slot => exact h.insert name hcall
  | remove name slot => exact h.remove name slot

/-- The tree and the leaf map of one history hold the same links. -/
theorem represents_treeOf {calls : List IndexOp} (h : ∀ call ∈ calls, call.Links (· ≠ 0)) :
    Represents (treeOf calls) (leavesOf calls) := by
  suffices hgen : ∀ root ix, Represents root ix → (∀ call ∈ calls, call.Links (· ≠ 0)) →
      Represents (calls.foldl IndexOp.tree root) (calls.foldl IndexOp.leaves ix) from
    hgen _ _ represents_empty h
  clear h
  induction calls with
  | nil => exact fun _ _ h _ => h
  | cons call calls ih =>
    intro root ix h hcalls
    obtain ⟨hcall, hcalls⟩ := List.forall_mem_cons.1 hcalls
    exact ih _ _ (IndexOp.represents h hcall) hcalls

theorem mem_leavesOf {P : VPtr → Prop} {calls : List IndexOp} (h : ∀ call ∈ calls, call.Links P)
    {leaf : Nat} {l : VPtr} (hl : l ∈ leavesOf calls leaf) (hne : l ≠ 0) : P l := by
  suffices hgen : ∀ ix : DirIndex, (∀ leaf, ∀ l ∈ ix leaf, l ≠ 0 → P l) →
      (∀ call ∈ calls, call.Links P) →
      ∀ leaf, ∀ l ∈ calls.foldl IndexOp.leaves ix leaf, l ≠ 0 → P l from
    hgen _ (by simp) h leaf l hl hne
  clear hl h
  induction calls with
  | nil => exact fun _ h _ => h
  | cons call calls ih =>
    intro ix hix hcalls
    obtain ⟨hcall, hcalls⟩ := List.forall_mem_cons.1 hcalls
    refine ih _ (fun leaf l hl hne => ?_) hcalls
    cases call with
    | insert name slot =>
      simp only [IndexOp.leaves, indexInsert, Function.update_apply] at hl
      split at hl
      · obtain rfl | hl := List.mem_cons.1 hl
        · exact hcall
        · exact hix _ l hl hne
      · exact hix leaf l hl hne
    | remove name slot =>
      simp only [IndexOp.leaves, indexRemove, Function.update_apply] at hl
      split at hl
      · obtain ⟨l', hl', heq⟩ := List.mem_map.1 hl
        split at heq
        · exact absurd heq.symm hne
        · exact heq ▸ hix _ l' hl' (heq ▸ hne)
      · exact hix leaf l hl hne

end SphereVFS
