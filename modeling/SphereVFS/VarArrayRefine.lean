import SphereVFS.VarArray

/-!
# SphereVFS.VarArrayRefine

What the sparse array is for: a map from indices to entries, with a count one above the largest index ever
claimed or set.

While every allocation succeeds, the array is that map. When one fails, the entries stay where they are.
But `var_array_grow_base` has claimed the index by then, and `var_array_resolve_base` walks by the height
of the root alone: where the root was not promoted as far as the index needs, the walk follows the low
digits of the index and may come to the chunk of another one.
-/

namespace SphereVFS
namespace VarArray

open DigitTree

variable {V : Type} [Zero V]

/-! ## A map -/

/-- The calls that change an array; `malloc` tells which allocations succeed. -/
inductive Call (V : Type) where
  | append (malloc : Nat → Bool) (value : V)
  | set (malloc : Nat → Bool) (idx : Nat) (value : V)
  | unset (idx : Nat)

def step (a : VarArray V) : Call V → VarArray V
  | .append malloc value => (a.append malloc value).2
  | .set malloc idx value => (a.set malloc idx value).2
  | .unset idx => a.unset idx

/-- Allocation succeeds, and indices are below `2 ^ 31 - 2`. -/
def Call.Plain : Call V → Prop
  | .append malloc _ => ∀ p, malloc p = true
  | .set malloc idx _ => (∀ p, malloc p = true) ∧ idx < 2 ^ 31 - 2
  | .unset idx => idx < 2 ^ 31 - 2

structure Sparse (V : Type) where
  touched : List Nat
  value : Nat → V

def Sparse.empty : Sparse V := ⟨[], fun _ => 0⟩

def Sparse.count (s : Sparse V) : Nat := (s.touched.map (· + 1)).foldr max 0

def Sparse.put (s : Sparse V) (idx : Nat) (value : V) : Sparse V :=
  ⟨idx :: s.touched, Function.update s.value idx value⟩

/-- What the calls mean. A full array takes no more indices. -/
def Sparse.step (s : Sparse V) : Call V → Sparse V
  | .append _ value => if 2 ^ 31 - 2 ≤ s.count then s else s.put s.count value
  | .set _ idx value => s.put idx value
  | .unset idx => ⟨s.touched, Function.update s.value idx 0⟩

structure Holds (a : VarArray V) (s : Sparse V) : Prop where
  tree : ∃ key, Tree a key
  touched : ∀ i ∈ s.touched, i < a.capacity ∧ a.find i ≠ 0
  value : ∀ i < a.capacity, a.find i ≠ 0 → a.entry (a.find i) (i % a.chunkSize) = s.value i
  zero : ∀ i, i ∉ s.touched → s.value i = 0

structure Refines (a : VarArray V) (s : Sparse V) : Prop where
  holds : Holds a s
  count : a.count = s.count
  bound : s.count ≤ 2 ^ 31 - 2

section Map

variable {a a' : VarArray V} {s : Sparse V} {i : Nat} {v : V}

omit [Zero V] in
theorem Sparse.count_put (s : Sparse V) (i : Nat) (v : V) : (s.put i v).count = max (i + 1) s.count := rfl

omit [Zero V] in
theorem Sparse.lt_count (h : i ∈ s.touched) : i < s.count := by
  obtain ⟨touched, value⟩ := s
  induction touched with
  | nil => cases h
  | cons x touched ih =>
    rw [count, List.map_cons, List.foldr_cons]
    obtain rfl | h := List.mem_cons.1 h
    · exact Nat.lt_of_lt_of_le (Nat.lt_succ_self i) (Nat.le_max_left _ _)
    · exact Nat.lt_of_lt_of_le (ih h) (Nat.le_max_right _ _)

omit [Zero V] in
theorem Sparse.exists_ge (h : i < s.count) : ∃ j ∈ s.touched, i ≤ j := by
  obtain ⟨touched, value⟩ := s
  induction touched with
  | nil => cases h
  | cons x touched ih =>
    rw [count, List.map_cons, List.foldr_cons] at h
    obtain h | h := lt_max_iff.1 h
    · exact ⟨x, List.mem_cons_self, Nat.le_of_lt_succ h⟩
    · obtain ⟨j, hj, hij⟩ := ih h
      exact ⟨j, List.mem_cons_of_mem x hj, hij⟩

theorem Holds.lt_capacity (h : Holds a s) (hi : i < s.count) : i < a.capacity := by
  obtain ⟨j, hj, hij⟩ := Sparse.exists_ge hi
  exact Nat.lt_of_le_of_lt hij (h.touched j hj).1

theorem Holds.grown (h : Holds a s) {key : Nat → Nat} (htree : Tree a' key) (hgrown : Grown a a') :
    Holds a' s := by
  obtain ⟨key₀, htree₀⟩ := h.tree
  refine ⟨⟨key, htree⟩, fun i hi => ?_, fun i hi hne => ?_, h.zero⟩
  · obtain ⟨hlt, hfind⟩ := h.touched i hi
    exact ⟨Nat.lt_of_lt_of_le hlt (hgrown.capacity_le htree₀.pos), by rwa [hgrown.found i hlt hfind]⟩
  · obtain ⟨hlt, heq⟩ | hnew := hgrown.old i hi hne
    · rw [heq] at hne ⊢
      rw [hgrown.kept _ (htree₀.find_spec hlt hne).1.2, hgrown.chunkSize]
      exact h.value i hlt hne
    · -- the chunk is new, and nothing was written there
      have hout : i ∉ s.touched := by
        intro hmem
        obtain ⟨hlt, hfind⟩ := h.touched i hmem
        rw [hgrown.found i hlt hfind] at hnew
        exact absurd (htree₀.find_spec hlt hfind).1.2 (Nat.not_lt.2 hnew)
      rw [hgrown.zero _ hnew (htree.find_spec hi hne).1.2, h.zero i hout]

omit [Zero V] in
theorem Tree.withCount (h : ∃ key, Tree a key) (count : Int) (entry : Nat → Nat → V) :
    ∃ key, Tree { a with count, entry } key := by
  obtain ⟨key, h⟩ := h
  exact ⟨key, h.chunkSize, h.shape, h.root, h.key_root⟩

theorem Holds.write (h : Holds a s) (hi : i < a.capacity) (hne : a.find i ≠ 0) {touched : List Nat}
    (htouched : ∀ j ∈ touched, j < a.capacity ∧ a.find j ≠ 0)
    (hzero : ∀ j, j ∉ touched → Function.update s.value i v j = 0) :
    Holds (a.write (a.find i) i v) ⟨touched, Function.update s.value i v⟩ := by
  obtain ⟨key, htree⟩ := h.tree
  refine ⟨Tree.withCount ⟨key, htree⟩ _ _, htouched, fun j hj hfind => ?_, hzero⟩
  have hj : j < a.capacity := hj
  have hfind : a.find j ≠ 0 := hfind
  show Function.update a.entry (a.find i) (Function.update (a.entry (a.find i)) (i % a.chunkSize) v)
    (a.find j) (j % a.chunkSize) = Function.update s.value i v j
  by_cases hij : j = i
  · subst hij
    rw [Function.update_self, Function.update_self, Function.update_self]
  · rw [Function.update_of_ne hij, ← h.value j hj hfind]
    by_cases hsame : a.find j = a.find i
    · rw [hsame, Function.update_self, Function.update_of_ne]
      exact htree.entries_apart hj hi hij hfind hsame
    · rw [Function.update_of_ne hsame]

theorem Holds.put (h : Holds a s) (hi : i < a.capacity) {p : Nat} (hfind : a.find i = p) (hne : p ≠ 0) :
    Holds (a.write p i v) (s.put i v) := by
  subst hfind
  refine h.write hi hne (fun j hj => ?_) fun j hj => ?_
  · obtain rfl | hj := List.mem_cons.1 hj
    · exact ⟨hi, hne⟩
    · exact h.touched j hj
  · obtain ⟨hji, hj⟩ := not_or.1 (mt List.mem_cons.2 hj)
    rw [Function.update_of_ne hji, h.zero j hj]

omit [Zero V] in
theorem resolveBase_of_lt (h : (i : Int) < a.count) : a.resolveBase i = a.find i := by
  rw [resolveBase, if_neg (Int.not_lt.2 (Int.natCast_nonneg i)), if_neg (Int.not_le.2 h), Int.toNat_natCast]

theorem Refines.resolve (h : Refines a s) (i : Nat) : i < s.count ∧ i < a.capacity ∧ a.resolveBase i = a.find i ∨
    i ∉ s.touched ∧ a.resolveBase i = 0 := by
  by_cases hi : i < s.count
  · exact .inl ⟨hi, h.holds.lt_capacity hi, resolveBase_of_lt (by rw [h.count]; exact_mod_cast hi)⟩
  · refine .inr ⟨fun hmem => hi (Sparse.lt_count hmem), ?_⟩
    rw [resolveBase, if_neg (Int.not_lt.2 (Int.natCast_nonneg i)), if_pos]
    rw [h.count]
    exact_mod_cast Nat.le_of_not_lt hi

theorem int32_eq {n : Nat} (h : n < 2 ^ 31) : int32 n = n := by
  rw [int32, Int.bmod_def]
  omega

theorem Holds.withCount (h : Holds a s) (count : Int) : Holds { a with count } s :=
  ⟨Tree.withCount h.tree count _, h.touched, h.value, h.zero⟩

omit [Zero V] in
theorem raiseCount_eq {n : Nat} (hcount : a.count = n) (hi : i < 2 ^ 31 - 1) :
    a.raiseCount i = { a with count := (max (i + 1) n : Nat) } := by
  rw [raiseCount, hcount]
  split
  · rename_i hlt
    rw [max_eq_left (by omega), ← int32_eq (n := i + 1) (by omega)]
    rfl
  · rename_i hge
    rw [max_eq_right (by omega), ← hcount]

theorem setBase_ok {malloc : Nat → Bool} {p : Nat} (heq : ensurePathAllocated malloc a i = (p, a')) (hne : p ≠ 0)
    (value : Option V) :
    setBase malloc a i value = (0, (a'.raiseCount i).write p i (value.getD 0)) := by
  rw [setBase, if_neg (Int.not_lt.2 (Int.natCast_nonneg i)), Int.toNat_natCast, heq]
  cases p with
  | zero => exact absurd rfl hne
  | succ p => rfl

theorem growBase_ok {malloc : Nat → Bool} {p : Nat} (hcount : a.count = i) (hroom : i < 2 ^ 31 - 2)
    (heq : ensurePathAllocated malloc { a with count := a.count + 1 } i = (p, a')) (hne : p ≠ 0) :
    growBase malloc a = ((i : Int), a') := by
  have hi : a.count.toNat = i := by rw [hcount, Int.toNat_natCast]
  rw [growBase, if_neg (by omega), hi, heq, hcount]
  cases p with
  | zero => exact absurd rfl hne
  | succ p => rfl

theorem Refines.set (h : Refines a s) {malloc : Nat → Bool} (hmalloc : ∀ p, malloc p = true)
    (hi : i < 2 ^ 31 - 2) : Refines (a.set malloc i v).2 (s.put i v) := by
  obtain ⟨key, htree⟩ := h.holds.tree
  obtain ⟨k, ⟨-, -, hnone⟩, -⟩ | ⟨p, a', key', -, heq, htree', hgrown, hlt, hfind, hne⟩ :=
    ensurePathAllocated_spec malloc htree i
  · rw [hmalloc] at hnone
    cases hnone
  · have hbound := h.bound
    rw [VarArray.set, setBase_ok heq (hne hmalloc), raiseCount_eq (hgrown.count.trans h.count) (by omega)]
    exact ⟨((h.holds.grown htree' hgrown).withCount (max (i + 1) s.count : Nat)).put hlt hfind (hne hmalloc), rfl,
      by rw [Sparse.count_put]; omega⟩

theorem Refines.append (h : Refines a s) {malloc : Nat → Bool} (hmalloc : ∀ p, malloc p = true) :
    Refines (a.append malloc v).2 (s.step (.append malloc v)) := by
  have hcount := h.count
  rw [Sparse.step]
  split
  · rename_i hfull
    have hgrow : growBase malloc a = (-1, a) := by rw [growBase, if_pos (by omega)]
    rw [VarArray.append, hgrow]
    exact h
  · rename_i hroom
    obtain ⟨key, htree⟩ := Tree.withCount h.holds.tree (a.count + 1) a.entry
    obtain ⟨k, ⟨-, -, hnone⟩, -⟩ | ⟨p, a', key', -, heq, htree', hgrown, hlt, hfind, hne⟩ :=
      ensurePathAllocated_spec malloc htree s.count
    · rw [hmalloc] at hnone
      cases hnone
    · have hcount' : a'.count = (s.count + 1 : Nat) := hgrown.count.trans (by rw [hcount]; rfl)
      have hresolve : a'.resolveBase s.count = p := by rw [resolveBase_of_lt (by omega), hfind]
      have happend : (a.append malloc v).2 = a'.write p s.count v := by
        rw [VarArray.append, growBase_ok hcount (by omega) heq (hne hmalloc), hresolve, if_neg (hne hmalloc)]
        rfl
      rw [happend]
      refine ⟨((h.holds.withCount _).grown htree' hgrown).put hlt hfind (hne hmalloc), ?_,
        by rw [Sparse.count_put]; omega⟩
      rw [Sparse.count_put, max_eq_left (Nat.le_succ _)]
      exact hcount'

theorem Refines.write (h : Refines a s) (hne : a.resolveBase i ≠ 0)
    (hzero : ∀ j, j ∉ s.touched → Function.update s.value i v j = 0) :
    Refines (a.write (a.resolveBase i) i v) ⟨s.touched, Function.update s.value i v⟩ := by
  obtain ⟨-, hlt, heq⟩ | ⟨-, heq⟩ := h.resolve i
  · rw [heq] at hne ⊢
    exact ⟨h.holds.write hlt hne h.holds.touched hzero, h.count, h.bound⟩
  · exact absurd heq hne

theorem Refines.unset (h : Refines a s) (i : Nat) : Refines (a.unset i) (s.step (.unset i)) := by
  rw [VarArray.unset]
  split
  · rename_i hnone
    have hzero : s.value i = 0 := by
      refine h.holds.zero i fun hmem => ?_
      obtain ⟨-, -, heq⟩ | ⟨hout, -⟩ := h.resolve i
      · exact (h.holds.touched i hmem).2 (heq.symm.trans hnone)
      · exact hout hmem
    rw [Sparse.step, ← hzero, Function.update_eq_self]
    exact h
  · rename_i hne
    refine h.write hne fun j hj => ?_
    rw [Function.update_apply, h.holds.zero j hj, ite_self]

theorem Refines.step (h : Refines a s) {c : Call V} (hc : c.Plain) : Refines (a.step c) (s.step c) := by
  cases c with
  | append malloc v => exact h.append hc
  | set malloc i v => exact h.set hc.1 hc.2
  | unset i => exact h.unset i

theorem Refines.run (h : Refines a s) {calls : List (Call V)} (hcalls : ∀ c ∈ calls, c.Plain) :
    Refines (calls.foldl VarArray.step a) (calls.foldl Sparse.step s) := by
  induction calls generalizing a s with
  | nil => exact h
  | cons c calls ih =>
    obtain ⟨hc, hcalls⟩ := List.forall_mem_cons.1 hcalls
    exact ih (h.step hc) hcalls

end Map

theorem newBase_holds {entrySize chunkSize : Int} {a : VarArray V} (h : newBase entrySize chunkSize = some a) :
    Holds a .empty ∧ a.count = 0 := by
  rw [newBase] at h
  split at h
  · cases h
  · cases h
    refine ⟨⟨⟨fun _ => 0, ?_, ⟨fun h => ?_, fun p d _ _ hslot => absurd rfl hslot⟩, ⟨Nat.one_pos, Nat.one_lt_two⟩,
      rfl⟩, fun i hi => absurd hi List.not_mem_nil, fun i _ _ => rfl, fun i _ => rfl⟩, rfl⟩
    · show 2 ≤ (min (max chunkSize 16) 4096).toNat
      omega
    · exact Nat.lt_irrefl 0 h.1

/-- Sparse array refinement: while allocation succeeds, the array is a map from the indices. -/
theorem varArray_refines {entrySize chunkSize : Int} {a₀ : VarArray V} (hnew : newBase entrySize chunkSize = some a₀)
    {calls : List (Call V)} (hcalls : ∀ c ∈ calls, c.Plain) {a : VarArray V} (ha : calls.foldl step a₀ = a)
    {s : Sparse V} (hs : calls.foldl Sparse.step .empty = s) :
    a.count = s.count ∧
    (∀ i < s.count, a.resolveBase i ≠ 0 → a.lookup i = some (s.value i)) ∧
    (∀ i ∈ s.touched, a.lookup i = some (s.value i)) ∧
    (∀ i ∉ s.touched, s.value i = 0) ∧
    ∀ i j : Nat, i ≠ j → a.resolveBase i ≠ 0 → a.resolveBase i = a.resolveBase j →
      i % a.chunkSize ≠ j % a.chunkSize := by
  obtain ⟨hholds, hcount⟩ := newBase_holds hnew
  have h : Refines a s := by
    subst ha hs
    exact Refines.run ⟨hholds, hcount, Nat.zero_le _⟩ hcalls
  have hlookup (i : Nat) (hne : a.resolveBase i ≠ 0) : a.lookup i = some (s.value i) := by
    obtain ⟨-, hlt, heq⟩ | ⟨-, heq⟩ := h.resolve i
    · rw [lookup, if_neg hne, Int.toNat_natCast, heq, h.holds.value i hlt (heq ▸ hne)]
    · exact absurd heq hne
  have hfound (i : Nat) (hne : a.resolveBase i ≠ 0) : i < a.capacity ∧ a.resolveBase i = a.find i := by
    obtain ⟨-, hlt, heq⟩ | ⟨-, heq⟩ := h.resolve i
    · exact ⟨hlt, heq⟩
    · exact absurd heq hne
  refine ⟨h.count, fun i _ => hlookup i, fun i hi => hlookup i ?_, h.holds.zero, fun i j hij hne heq => ?_⟩
  · obtain ⟨-, -, heq⟩ | ⟨hout, -⟩ := h.resolve i
    · exact heq ▸ (h.holds.touched i hi).2
    · exact absurd hi hout
  · obtain ⟨hi, hfi⟩ := hfound i hne
    obtain ⟨hj, hfj⟩ := hfound j (heq ▸ hne)
    obtain ⟨key, htree⟩ := h.holds.tree
    exact htree.entries_apart hi hj hij (hfi ▸ hne) (by rw [← hfi, heq, hfj])

def sparseCalls : List (Call Nat) :=
  (List.range 17).map (Call.append fun _ => true) ++ [.set (fun _ => true) 300 7, .unset 3]

theorem sparseCalls_plain : ∀ c ∈ sparseCalls, c.Plain := by
  intro c hc
  obtain hc | hc := List.mem_append.1 hc
  · obtain ⟨v, -, rfl⟩ := List.mem_map.1 hc
    exact fun _ => rfl
  · obtain rfl | hc := List.mem_cons.1 hc
    · exact ⟨fun _ => rfl, by decide⟩
    · obtain rfl := List.mem_singleton.1 hc
      exact show 3 < 2 ^ 31 - 2 by decide

theorem varArray_refines_two_levels :
    ∃ a : VarArray Nat, (newBase 8 16).map (sparseCalls.foldl step ·) = some a ∧
      a.count = 301 ∧ a.lookup 16 = some 16 ∧ a.lookup 300 = some 7 ∧ a.lookup 3 = some 0 := by
  obtain ⟨a₀, hnew⟩ : ∃ a₀ : VarArray Nat, newBase 8 16 = some a₀ := ⟨_, rfl⟩
  obtain ⟨hcount, -, htouched, -⟩ := varArray_refines hnew sparseCalls_plain rfl rfl
  exact ⟨_, by rw [hnew]; rfl, hcount, htouched 16 (by decide), htouched 300 (by decide), htouched 3 (by decide)⟩

/-! ## Allocation fails -/

inductive Growth (V : Type) where
  | grow
  | set (idx : Nat) (value : Option V)

def Growth.call (malloc : Nat → Bool) (a : VarArray V) : Growth V → Int × VarArray V
  | .grow => a.growBase malloc
  | .set idx value => a.setBase malloc idx value

def Growth.index (a : VarArray V) : Growth V → Nat
  | .grow => a.count.toNat
  | .set idx _ => idx

def Growth.Claimed (a : VarArray V) : Growth V → Prop
  | .grow => True
  | .set idx _ => idx < a.count

/-- `INT_MAX` is not an index: one more is not an `int`. -/
def Call.Valid : Call V → Prop
  | .set _ idx _ => idx < 2 ^ 31 - 1
  | _ => True

structure Sound (a : VarArray V) : Prop where
  tree : ∃ key, Tree a key
  count : 0 ≤ a.count

section Failure

variable {a a' : VarArray V} {malloc : Nat → Bool} {idx : Nat}

omit [Zero V] in
theorem Sound.write (h : Sound a) (chunk idx : Nat) (v : V) : Sound (a.write chunk idx v) :=
  ⟨Tree.withCount h.tree _ _, h.count⟩

theorem growBase_eq (hroom : a.count < 2 ^ 31 - 2) :
    (growBase malloc a).2 = (ensurePathAllocated malloc { a with count := a.count + 1 } a.count.toNat).2 := by
  rw [growBase, if_neg (Int.not_le.2 hroom)]
  split <;> simp_all

theorem setBase_eq (malloc : Nat → Bool) (a : VarArray V) (idx : Nat) (value : Option V) :
    (setBase malloc a idx value).1 = -1 ∧ (ensurePathAllocated malloc a idx).1 = 0 ∧
      (setBase malloc a idx value).2 = (ensurePathAllocated malloc a idx).2 ∨
    (setBase malloc a idx value).1 = 0 ∧ (setBase malloc a idx value).2 =
      ((ensurePathAllocated malloc a idx).2.raiseCount idx).write (ensurePathAllocated malloc a idx).1 idx
        (value.getD 0) := by
  obtain ⟨p, a', heq⟩ : ∃ p a', ensurePathAllocated malloc a idx = (p, a') := ⟨_, _, rfl⟩
  by_cases hne : p = 0
  · subst hne
    refine .inl ?_
    rw [setBase, if_neg (Int.not_lt.2 (Int.natCast_nonneg idx)), Int.toNat_natCast, heq]
    exact ⟨rfl, rfl, rfl⟩
  · refine .inr ?_
    rw [setBase_ok heq hne, heq]
    exact ⟨rfl, rfl⟩

theorem Sound.grow (h : Sound a) : Sound (growBase malloc a).2 := by
  by_cases hroom : a.count < 2 ^ 31 - 2
  · obtain ⟨key, htree⟩ := Tree.withCount h.tree (a.count + 1) a.entry
    obtain ⟨htree', hgrown⟩ := ensurePathAllocated_grown malloc htree a.count.toNat
    have hcount := h.count
    rw [growBase_eq hroom]
    exact ⟨htree', by rw [hgrown.count]; show 0 ≤ a.count + 1; omega⟩
  · rw [growBase, if_pos (Int.not_lt.1 hroom)]
    exact h

theorem Sound.set (h : Sound a) (hidx : idx < 2 ^ 31 - 1) (value : Option V) :
    Sound (setBase malloc a idx value).2 := by
  obtain ⟨key, htree⟩ := h.tree
  obtain ⟨htree', hgrown⟩ := ensurePathAllocated_grown malloc htree idx
  have hcount := hgrown.count ▸ h.count
  obtain ⟨-, -, heq⟩ | ⟨-, heq⟩ := setBase_eq malloc a idx value
  · rw [heq]
    exact ⟨htree', hcount⟩
  · rw [heq, raiseCount_eq (Int.toNat_of_nonneg hcount).symm hidx]
    exact .write ⟨Tree.withCount htree' _ _, Int.natCast_nonneg _⟩ ..

theorem Sound.step (h : Sound a) {c : Call V} (hc : c.Valid) : Sound (a.step c) := by
  cases c with
  | append malloc v =>
    rw [VarArray.step, append]
    split
    · exact h.grow
    · exact h.grow.write ..
  | set malloc i v => exact h.set hc _
  | unset i =>
    rw [VarArray.step, unset]
    split
    · exact h
    · exact h.write ..

theorem Sound.run (h : Sound a) {calls : List (Call V)} (hcalls : ∀ c ∈ calls, c.Valid) :
    Sound (calls.foldl VarArray.step a) := by
  induction calls generalizing a with
  | nil => exact h
  | cons c calls ih =>
    obtain ⟨hc, hcalls⟩ := List.forall_mem_cons.1 hcalls
    exact ih (h.step hc) hcalls

theorem find_promotes {key : Nat → Nat} (h : Tree a key) (k i : Nat) : (promote^[k] a).find i =
    if i % a.chunkSize ^ (a.rootHeight + k + 1) < a.capacity then a.find i else 0 := by
  induction k with
  | zero =>
    have hlt : i % a.chunkSize ^ (a.rootHeight + 0 + 1) < a.capacity := Nat.mod_lt _ (Nat.pow_pos h.pos)
    rw [if_pos hlt]
    rfl
  | succ k ih =>
    obtain ⟨⟨key', htree⟩, hgrown, hheight, -⟩ := h.promotes k
    have hle : a.capacity ≤ a.chunkSize ^ (a.rootHeight + k + 1) :=
      Nat.pow_le_pow_right h.pos (by omega)
    have hmod : i % a.chunkSize ^ (a.rootHeight + k + 1 + 1) = i % a.chunkSize ^ (a.rootHeight + k + 1) +
        a.chunkSize ^ (a.rootHeight + k + 1) * digit a.chunkSize i (a.rootHeight + k + 1) := Nat.mod_pow_succ
    rw [Function.iterate_succ_apply', find_promote htree, hheight, hgrown.chunkSize, ih,
      show a.rootHeight + (k + 1) + 1 = a.rootHeight + k + 1 + 1 by omega, hmod]
    split
    · rename_i hdigit
      simp only [hdigit, Nat.mul_zero, Nat.add_zero]
    · rename_i hdigit
      have hhigh := Nat.le_mul_of_pos_right (a.chunkSize ^ (a.rootHeight + k + 1)) (Nat.pos_of_ne_zero hdigit)
      exact (if_neg (Nat.not_lt.2 (hle.trans (hhigh.trans (Nat.le_add_left _ _))))).symm

omit [Zero V] in
theorem lookup_eq_some {v : V} : a.lookup idx = some v ↔
    (idx : Int) < a.count ∧ a.find idx ≠ 0 ∧ a.entry (a.find idx) (idx % a.chunkSize) = v := by
  rw [lookup]
  by_cases hcount : (idx : Int) < a.count
  · rw [resolveBase_of_lt hcount, Int.toNat_natCast]
    by_cases hfind : a.find idx = 0 <;> simp [hcount, hfind]
  · rw [resolveBase, if_pos (Int.not_lt.1 hcount)]
    simp [hcount]

theorem Grown.lookup {key : Nat → Nat} (h : Grown a a') (htree : Tree a key) (hidx : idx < a.capacity) {v : V}
    (hv : a.lookup idx = some v) : a'.lookup idx = some v := by
  obtain ⟨hcount, hfind, hentry⟩ := lookup_eq_some.1 hv
  rw [lookup_eq_some, h.count, h.chunkSize, h.found idx hidx hfind, h.kept _ (htree.find_spec hidx hfind).1.2]
  exact ⟨hcount, hfind, hentry⟩

/-- After a failed call: the entries are kept, and the index leads to a chunk only past a root that is too low. -/
theorem failed_path {key : Nat → Nat} (htree : Tree a key) (hfail : ensurePathAllocated malloc a idx = (0, a')) :
    a'.find idx = 0 ↔ ¬ ∃ k, Blocked malloc a idx k ∧
      idx % a.chunkSize ^ (a.rootHeight + k + 1) < a.capacity ∧ a.find idx ≠ 0 := by
  obtain ⟨k, hk, heq⟩ | ⟨p, a'', key', hnone, heq, -, -, -, hfind, -⟩ := ensurePathAllocated_spec malloc htree idx
  · -- only the first promotion that fails counts
    have honly : ∀ j, Blocked malloc a idx j → j = k := by
      intro j hj
      by_contra hne
      obtain hlt | hlt := Nat.lt_or_gt_of_ne hne
      · exact Bool.noConfusion ((hk.2.1 j hlt).symm.trans hj.2.2)
      · exact Bool.noConfusion ((hj.2.1 k hlt).symm.trans hk.2.2)
    cases hfail.symm.trans heq
    rw [find_promotes htree]
    constructor
    · rintro hzero ⟨j, hj, hlow, hne⟩
      rw [honly j hj] at hlow
      rw [if_pos hlow] at hzero
      exact hne hzero
    · intro hnot
      by_contra hne
      split_ifs at hne with hlow
      · exact hnot ⟨k, hk, hlow, hne⟩
      · exact hne rfl
  · cases hfail.symm.trans heq
    exact iff_of_true hfind fun ⟨k, hk, _⟩ => hnone k hk

theorem growBase_failed (hcount : 0 ≤ a.count) (hroom : a.count < 2 ^ 31 - 2) (h : growBase malloc a = (-1, a')) :
    ensurePathAllocated malloc { a with count := a.count + 1 } a.count.toNat = (0, a') := by
  rw [growBase, if_neg (Int.not_le.2 hroom)] at h
  split at h
  · rename_i heq
    cases h
    exact heq
  · have hidx : a.count = -1 := congrArg Prod.fst h
    omega

theorem setBase_failed {value : Option V} (h : setBase malloc a idx value = (-1, a')) :
    ensurePathAllocated malloc a idx = (0, a') := by
  obtain ⟨-, hzero, heq⟩ | ⟨hok, -⟩ := setBase_eq malloc a idx value
  · rw [h] at heq
    exact Prod.ext hzero heq.symm
  · rw [h] at hok
    cases hok

end Failure

def fullChunk : List (Call Nat) := (List.range 16).map fun v => .append (fun _ => true) (v + 1)

/-- An append to a full chunk fails for want of memory; the index it claimed is then the first entry. -/
theorem failed_append_aliases :
    (newBase 8 16).map (fun a₀ =>
      let a := fullChunk.foldl step a₀
      let r := a.growBase fun _ => false
      (r.1, a.lookup 0, r.2.lookup 16, (r.2.unset 16).lookup 0)) = some (-1, some 1, some 1, some 0) := by
  decide +kernel

/-- Sparse array allocation failure: the entries stay, and the index without a path resolves to nothing unless
the call claimed it and the root is too low. -/
theorem failed_growth {entrySize chunkSize : Int} {a₀ : VarArray V} (hnew : newBase entrySize chunkSize = some a₀)
    {calls : List (Call V)} (hcalls : ∀ c ∈ calls, c.Valid) {a : VarArray V} (ha : calls.foldl step a₀ = a)
    {malloc : Nat → Bool} {g : Growth V} (hroom : g = .grow → a.count < 2 ^ 31 - 2)
    {a' : VarArray V} (hfail : g.call malloc a = (-1, a')) :
    (∀ i v, i < a.capacity → a.lookup i = some v → a'.lookup i = some v) ∧
    (a'.resolveBase (g.index a) = 0 ↔ ¬ (g.Claimed a ∧ ∃ k, Blocked malloc a (g.index a) k ∧
      g.index a % a.chunkSize ^ (a.rootHeight + k + 1) < a.capacity ∧ a.find (g.index a) ≠ 0)) := by
  obtain ⟨hholds, hcount₀⟩ := newBase_holds hnew
  have h : Sound a := by
    subst ha
    exact Sound.run ⟨hholds.tree, Int.le_of_eq hcount₀.symm⟩ hcalls
  cases g with
  | grow =>
    have hcount := h.count
    obtain ⟨key, htree⟩ := Tree.withCount h.tree (a.count + 1) a.entry
    have heq := growBase_failed hcount (hroom rfl) hfail
    have hgrown := (ensurePathAllocated_grown malloc htree a.count.toNat).2
    rw [heq] at hgrown
    refine ⟨fun i v hi hv => ?_, ?_⟩
    · refine hgrown.lookup htree hi ?_
      obtain ⟨hlt, hfind⟩ := lookup_eq_some.1 hv
      exact lookup_eq_some.2 ⟨Int.lt_trans hlt (Int.lt_succ _), hfind⟩
    · have hclaimed : ((Growth.index a .grow : Nat) : Int) < a'.count := by
        rw [hgrown.count]
        show (a.count.toNat : Int) < a.count + 1
        omega
      rw [resolveBase_of_lt hclaimed]
      exact (failed_path htree heq).trans (by simp [Growth.Claimed]; rfl)
  | set idx value =>
    obtain ⟨key, htree⟩ := h.tree
    have heq := setBase_failed hfail
    have hgrown := (ensurePathAllocated_grown malloc htree idx).2
    rw [heq] at hgrown
    refine ⟨fun i v hi hv => hgrown.lookup htree hi hv, ?_⟩
    rw [show Growth.index a (.set idx value) = idx from rfl]
    by_cases hclaimed : (idx : Int) < a.count
    · rw [resolveBase_of_lt (by rwa [hgrown.count]), failed_path htree heq]
      simp [Growth.Claimed, hclaimed]
    · rw [resolveBase, hgrown.count, if_pos (Int.not_lt.1 hclaimed), ite_self]
      simp [Growth.Claimed, hclaimed]

theorem failed_growth_full_chunk :
    ∃ a a' : VarArray Nat, (newBase 8 16).map (fullChunk.foldl step ·) = some a ∧
      a.setBase (fun _ => false) 40 none = (-1, a') ∧ a'.lookup 1 = some 2 ∧ a'.resolveBase 40 = 0 := by
  have hrun : (newBase 8 16).map (fun a₀ : VarArray Nat =>
      let a := fullChunk.foldl step a₀
      ((a.setBase (fun _ => false) 40 none).1, decide (1 < a.capacity), a.lookup 1, decide (a.count ≤ 40))) =
        some (-1, true, some 2, true) := by
    decide +kernel
  have hvalid : ∀ c ∈ fullChunk, c.Valid := by
    intro c hc
    obtain ⟨v, -, rfl⟩ := List.mem_map.1 hc
    trivial
  obtain ⟨a₀, hnew⟩ : ∃ a₀ : VarArray Nat, newBase 8 16 = some a₀ := ⟨_, rfl⟩
  obtain ⟨a, ha⟩ : ∃ a, fullChunk.foldl step a₀ = a := ⟨_, rfl⟩
  simp only [hnew, ha, Option.map_some, Option.some.injEq, Prod.mk.injEq, decide_eq_true_eq] at hrun ⊢
  obtain ⟨hset, hcap, hone, hcount⟩ := hrun
  have hfail : Growth.call (fun _ => false) a (.set 40 none) = (-1, _) := Prod.ext hset rfl
  obtain ⟨hkept, hnull⟩ := failed_growth (g := .set 40 none) hnew hvalid ha nofun hfail
  exact ⟨a, _, rfl, hfail, hkept 1 2 hcap hone, hnull.2 fun h => Int.not_le.2 h.1 hcount⟩

end VarArray
end SphereVFS
