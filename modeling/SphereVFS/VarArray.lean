import SphereVFS.Lib.DigitTree
import SphereVFS.Lib.Run

/-!
# SphereVFS.VarArray

The sparse array of `var_array.c`: a tree of chunks whose branching factor is the chunk size. An index is
claimed or set; the root is promoted until the tree has room for it, and the nodes on its path are made.

Entries are of a type with a zero, the contents of a cleared entry. `malloc` tells for each address whether
the allocation that would return it succeeds. One thread runs here, so every compare-and-swap succeeds.
-/

namespace SphereVFS

open DigitTree

/-- `VarArrayBase` with the nodes of its tree and their entries; `next` is the address of the next
allocation. -/
structure VarArray (V : Type) where
  chunkSize : Nat
  root : Nat
  count : Int
  nodes : Nodes
  entry : Nat → Nat → V
  next : Nat

namespace VarArray

variable {V : Type}

/-- A conversion to `int32_t`. -/
def int32 (z : Int) : Int := z.bmod (2 ^ 32)

/-- `var_array_new_base`. -/
def newBase [Zero V] (entrySize chunkSize : Int) : Option (VarArray V) :=
  if entrySize ≤ 0 then none
  else
    some
      { chunkSize := (min (max chunkSize 16) 4096).toNat
        root := 1
        count := 0
        nodes := ⟨fun _ => 0, fun _ _ => 0⟩
        entry := fun _ _ => 0
        next := 2 }

def rootHeight (a : VarArray V) : Nat := a.nodes.height a.root

def capacity (a : VarArray V) : Nat := a.chunkSize ^ (a.rootHeight + 1)

/-- The loop that computes `needed_height`; an index takes at most that many rounds. -/
def heightLoop (cs idx : Nat) : Nat → Nat → Nat → Nat
  | 0, _, h => h
  | n + 1, cap, h => if cap ≤ idx then heightLoop cs idx n (cap * cs) (h + 1) else h

def neededHeight (cs idx : Nat) : Nat := heightLoop cs idx idx cs 0

/-- `alloc_level_typed` and `alloc_chunk_typed`: zeroed memory at the next address. -/
def alloc [Zero V] (a : VarArray V) (height : Nat) : VarArray V :=
  { a with
    nodes := a.nodes.alloc a.next height
    entry := Function.update a.entry a.next fun _ => 0
    next := a.next + 1 }

def promote [Zero V] (a : VarArray V) : VarArray V :=
  { a.alloc (a.rootHeight + 1) with
    nodes := (a.nodes.alloc a.next (a.rootHeight + 1)).link a.next 0 a.root
    root := a.next }

/-- A new child of height `height` in a slot of a node. -/
def attach [Zero V] (a : VarArray V) (node slot height : Nat) : VarArray V :=
  { a.alloc height with nodes := (a.nodes.alloc a.next height).link node slot a.next }

/-- The loop that promotes the root; `false` when an allocation fails. Each round adds one to the height. -/
def promoteLoop [Zero V] (malloc : Nat → Bool) (needed : Nat) : Nat → VarArray V → Bool × VarArray V
  | 0, a => (true, a)
  | n + 1, a =>
    if a.rootHeight < needed then
      if malloc a.next then promoteLoop malloc needed n a.promote else (false, a)
    else (true, a)

/-- The walk of `ensure_path_allocated` from a node of height `level` on; `0` when an allocation fails. -/
def walk [Zero V] (malloc : Nat → Bool) (idx : Nat) : Nat → Nat → VarArray V → Nat × VarArray V
  | 0, node, a => (node, a)
  | level + 1, node, a =>
    let slot := digit a.chunkSize idx (level + 1)
    if a.nodes.slot node slot ≠ 0 then walk malloc idx level (a.nodes.slot node slot) a
    else if malloc a.next then walk malloc idx level a.next (a.attach node slot level)
    else (0, a)

/-- `ensure_path_allocated`: the chunk of the index, `0` for `NULL`. -/
def ensurePathAllocated [Zero V] (malloc : Nat → Bool) (a : VarArray V) (idx : Nat) : Nat × VarArray V :=
  match promoteLoop malloc (neededHeight a.chunkSize idx) (neededHeight a.chunkSize idx) a with
  | (false, a1) => (0, a1)
  | (true, a1) => walk malloc idx a1.rootHeight a1.root a1

/-- `var_array_grow_base`. -/
def growBase [Zero V] (malloc : Nat → Bool) (a : VarArray V) : Int × VarArray V :=
  if 2 ^ 31 - 2 ≤ a.count then (-1, a)
  else
    match ensurePathAllocated malloc { a with count := a.count + 1 } a.count.toNat with
    | (0, a1) => (-1, a1)
    | (_, a1) => (a.count, a1)

def write (a : VarArray V) (chunk idx : Nat) (value : V) : VarArray V :=
  { a with
    entry := Function.update a.entry chunk (Function.update (a.entry chunk) (idx % a.chunkSize) value) }

def raiseCount (a : VarArray V) (idx : Int) : VarArray V :=
  if a.count < idx + 1 then { a with count := int32 (idx + 1) } else a

/-- `var_array_set_base`; without a value the entry is cleared. -/
def setBase [Zero V] (malloc : Nat → Bool) (a : VarArray V) (idx : Int) (value : Option V) : Int × VarArray V :=
  if idx < 0 then (-1, a)
  else
    match ensurePathAllocated malloc a idx.toNat with
    | (0, a1) => (-1, a1)
    | (chunk, a1) => (0, (a1.raiseCount idx).write chunk idx.toNat (value.getD 0))

def find (a : VarArray V) (idx : Nat) : Nat := descend a.chunkSize a.nodes idx 0 a.rootHeight a.root

/-- `var_array_resolve_base`. -/
def resolveBase (a : VarArray V) (idx : Int) : Nat :=
  if idx < 0 then 0 else if a.count ≤ idx then 0 else a.find idx.toNat

/-- `var_array_lookup`: the entry that the pointer names. -/
def lookup (a : VarArray V) (idx : Int) : Option V :=
  if a.resolveBase idx = 0 then none else some (a.entry (a.resolveBase idx) (idx.toNat % a.chunkSize))

/-- `var_array_append`. -/
def append [Zero V] (malloc : Nat → Bool) (a : VarArray V) (value : V) : Int × VarArray V :=
  let r := growBase malloc a
  if r.2.resolveBase r.1 = 0 then r else (r.1, r.2.write (r.2.resolveBase r.1) r.1.toNat value)

/-- `var_array_set`. -/
def set [Zero V] (malloc : Nat → Bool) (a : VarArray V) (idx : Int) (value : V) : Int × VarArray V :=
  setBase malloc a idx (some value)

/-- `var_array_unset`. -/
def unset [Zero V] (a : VarArray V) (idx : Int) : VarArray V :=
  if a.resolveBase idx = 0 then a else a.write (a.resolveBase idx) idx.toNat 0

/-! ## The tree -/

def Live (a : VarArray V) (p : Nat) : Prop := 0 < p ∧ p < a.next

structure Tree (a : VarArray V) (key : Nat → Nat) : Prop where
  chunkSize : 2 ≤ a.chunkSize
  shape : Shape a.chunkSize a.nodes a.Live key
  root : a.Live a.root
  key_root : key a.root = 0

/-- The path of an index has a node of height `l`. -/
structure At (a : VarArray V) (i l p : Nat) : Prop where
  room : i < a.capacity
  level : l ≤ a.rootHeight
  path : descend a.chunkSize a.nodes i l a.rootHeight a.root = p
  ne : p ≠ 0

structure Grown [Zero V] (a a' : VarArray V) : Prop where
  chunkSize : a'.chunkSize = a.chunkSize
  count : a'.count = a.count
  next : a.next ≤ a'.next
  height : a.rootHeight ≤ a'.rootHeight
  found : ∀ i < a.capacity, a.find i ≠ 0 → a'.find i = a.find i
  old : ∀ i < a'.capacity, a'.find i ≠ 0 → i < a.capacity ∧ a'.find i = a.find i ∨ a.next ≤ a'.find i
  kept : ∀ p < a.next, a'.entry p = a.entry p
  zero : ∀ p, a.next ≤ p → p < a'.next → a'.entry p = fun _ => 0

section Tree

variable {a a' a'' : VarArray V} {key : Nat → Nat} {i j : Nat}

theorem Tree.pos (h : Tree a key) : 0 < a.chunkSize := Nat.lt_of_lt_of_le Nat.two_pos h.chunkSize

theorem Tree.at_node (h : Tree a key) {l p : Nat} (hat : At a i l p) :
    a.Live p ∧ a.nodes.height p = l ∧ i / a.chunkSize ^ (l + 1) = key p := by
  have hroot : i / a.chunkSize ^ (a.rootHeight + 1) = key a.root := by
    rw [h.key_root]
    exact Nat.div_eq_of_lt hat.room
  have hnode := h.shape.descend h.pos h.root rfl hroot hat.level (hat.path.trans_ne hat.ne)
  rwa [show descend _ _ _ _ (a.nodes.height a.root) _ = p from hat.path] at hnode

theorem Tree.find_spec (h : Tree a key) (hi : i < a.capacity) (hne : a.find i ≠ 0) :
    a.Live (a.find i) ∧ key (a.find i) = i / a.chunkSize := by
  obtain ⟨hlive, -, hkey⟩ := h.at_node ⟨hi, Nat.zero_le _, rfl, hne⟩
  exact ⟨hlive, by rw [← Nat.pow_one a.chunkSize]; exact hkey.symm⟩

theorem At.child {l p : Nat} (h : At a i (l + 1) p) (hne : a.nodes.slot p (digit a.chunkSize i (l + 1)) ≠ 0) :
    At a i l (a.nodes.slot p (digit a.chunkSize i (l + 1))) :=
  ⟨h.room, Nat.le_of_succ_le h.level, descend_succ h.level h.path h.ne, hne⟩

theorem Tree.entries_apart (h : Tree a key) (hi : i < a.capacity) (hj : j < a.capacity) (hij : i ≠ j)
    (hfi : a.find i ≠ 0) (heq : a.find i = a.find j) : i % a.chunkSize ≠ j % a.chunkSize := by
  intro hmod
  have hdiv : i / a.chunkSize = j / a.chunkSize := by
    rw [← (h.find_spec hi hfi).2, ← (h.find_spec hj (heq ▸ hfi)).2, heq]
  exact hij (by rw [← Nat.div_add_mod i a.chunkSize, hdiv, hmod, Nat.div_add_mod])

theorem Tree.next_pos (h : Tree a key) : 0 < a.next := Nat.lt_trans h.root.1 h.root.2

theorem Tree.fresh (h : Tree a key) : ¬ a.Live a.next ∧ a.next ≠ 0 :=
  ⟨fun hlive => Nat.lt_irrefl _ hlive.2, Nat.ne_of_gt h.next_pos⟩

theorem alloc_slot (height : Nat) {p : Nat} (hp : a.Live p) (d : Nat) :
    (a.nodes.alloc a.next height).slot p d = a.nodes.slot p d := by
  have hne : p ≠ a.next := Nat.ne_of_lt hp.2
  simp only [Nodes.alloc, Function.update_of_ne hne]

variable [Zero V]

theorem Grown.refl (a : VarArray V) : Grown a a :=
  ⟨rfl, rfl, Nat.le_refl _, Nat.le_refl _, fun _ _ _ => rfl, fun _ hi _ => .inl ⟨hi, rfl⟩, fun _ _ => rfl,
    fun _ hp hp' => absurd hp (Nat.not_le.2 hp')⟩

theorem Grown.capacity_le (h : Grown a a') (hcs : 0 < a.chunkSize) : a.capacity ≤ a'.capacity := by
  rw [capacity, capacity, h.chunkSize]
  exact Nat.pow_le_pow_right hcs (Nat.succ_le_succ h.height)

theorem Grown.trans (h : Grown a a') (h' : Grown a' a'') (hcs : 0 < a.chunkSize) : Grown a a'' where
  chunkSize := h'.chunkSize.trans h.chunkSize
  count := h'.count.trans h.count
  next := Nat.le_trans h.next h'.next
  height := Nat.le_trans h.height h'.height
  found i hi hne := by
    have heq := h.found i hi hne
    rw [h'.found i (Nat.lt_of_lt_of_le hi (h.capacity_le hcs)) (heq ▸ hne), heq]
  old i hi hne := by
    obtain ⟨hi, heq⟩ | hnew := h'.old i hi hne
    · rw [heq] at hne ⊢
      exact h.old i hi hne
    · exact .inr (Nat.le_trans h.next hnew)
  kept p hp := (h'.kept p (Nat.lt_of_lt_of_le hp h.next)).trans (h.kept p hp)
  zero p hp hp' := by
    by_cases hlt : p < a'.next
    · exact (h'.kept p hlt).trans (h.zero p hp hlt)
    · exact h'.zero p (Nat.le_of_not_lt hlt) hp'

/-! ## New nodes -/

theorem Tree.alloc_shape (h : Tree a key) (height k : Nat) : Shape a.chunkSize (a.nodes.alloc a.next height)
    (a.alloc height).Live (Function.update key a.next k) := by
  refine (h.shape.alloc h.fresh.1 h.fresh.2 height k).congr fun p => ?_
  have := h.next_pos
  simp only [Live, VarArray.alloc]
  omega

theorem descend_promote (h : Tree a key) (i : Nat) {l : Nat} (hl : l ≤ a.rootHeight) :
    descend a.chunkSize a.promote.nodes i l (a.rootHeight + 1) a.next =
      if digit a.chunkSize i (a.rootHeight + 1) = 0 then descend a.chunkSize a.nodes i l a.rootHeight a.root
      else 0 := by
  have hslot (d : Nat) : a.promote.nodes.slot a.next d = if d = 0 then a.root else 0 := by
    simp only [promote, Nodes.link_slot, true_and]
    split
    · rfl
    · simp [Nodes.alloc]
  have hsame : ∀ p d, a.Live p → a.promote.nodes.slot p d = a.nodes.slot p d := by
    intro p d hp
    rw [promote, Nodes.link_slot, if_neg fun heq => Nat.ne_of_lt hp.2 heq.1, alloc_slot _ hp]
  have hstep : descend a.chunkSize a.promote.nodes i l (a.rootHeight + 1) a.next =
      if a.promote.nodes.slot a.next (digit a.chunkSize i (a.rootHeight + 1)) = 0 then 0
      else descend a.chunkSize a.promote.nodes i l a.rootHeight
        (a.promote.nodes.slot a.next (digit a.chunkSize i (a.rootHeight + 1))) := by
    rw [descend, if_neg (Nat.not_le.2 (Nat.lt_succ_of_le hl))]
  rw [hstep, hslot]
  split_ifs with hzero hnull hnull
  · exact absurd hnull (Nat.ne_of_gt h.root.1)
  · exact h.shape.descend_congr h.pos hsame h.root
  · rfl
  · exact absurd rfl hnull

theorem rootHeight_promote (a : VarArray V) : a.promote.rootHeight = a.rootHeight + 1 := Function.update_self ..

theorem find_promote (h : Tree a key) (i : Nat) : a.promote.find i =
    if digit a.chunkSize i (a.rootHeight + 1) = 0 then a.find i else 0 := by
  rw [find, rootHeight_promote]
  exact descend_promote h i (Nat.zero_le _)

omit [Zero V] in
theorem digit_of_lt_capacity (hi : i < a.capacity) : digit a.chunkSize i (a.rootHeight + 1) = 0 := by
  rw [digit, Nat.div_eq_of_lt (show i < a.chunkSize ^ (a.rootHeight + 1) from hi), Nat.zero_mod]

theorem Tree.promote (h : Tree a key) :
    Tree a.promote (Function.update key a.next 0) ∧ Grown a a.promote ∧
      a.promote.rootHeight = a.rootHeight + 1 := by
  have hroot := rootHeight_promote a
  have hne : a.root ≠ a.next := Nat.ne_of_lt h.root.2
  refine ⟨⟨h.chunkSize, ?_, ⟨h.next_pos, Nat.lt_succ_self _⟩, Function.update_self ..⟩, ?_, hroot⟩
  · refine (h.alloc_shape (a.rootHeight + 1) 0).link ⟨h.root.1, Nat.lt_succ_of_lt h.root.2⟩ ?_ ?_
    · simp only [Nodes.alloc, Function.update_self, Function.update_of_ne hne]
      rfl
    · rw [Function.update_self, Function.update_of_ne hne, h.key_root, Nat.zero_mul]
  · refine ⟨rfl, rfl, Nat.le_succ _, by omega, fun i hi _ => ?_, fun i hi hfind => .inl ?_, fun p hp => ?_,
      fun p hp hp' => ?_⟩
    · rw [find_promote h, if_pos (digit_of_lt_capacity hi)]
    · rw [find_promote h] at hfind ⊢
      split_ifs at hfind ⊢ with hzero
      · refine ⟨?_, rfl⟩
        rw [capacity, hroot] at hi
        rw [digit, Nat.mod_eq_of_lt (Nat.div_lt_of_lt_mul (by rwa [← Nat.pow_succ]))] at hzero
        exact (Nat.div_eq_zero_iff_lt (Nat.pow_pos h.pos)).1 hzero
      · exact absurd rfl hfind
    · exact Function.update_of_ne (Nat.ne_of_lt hp) ..
    · have hlast : p = a.next := Nat.le_antisymm (Nat.le_of_lt_succ hp') hp
      rw [hlast]
      exact Function.update_self ..

theorem descend_attach (h : Tree a key) {node slot height l k : Nat} (hfree : a.nodes.slot node slot = 0)
    (hne : descend a.chunkSize a.nodes i l k a.root ≠ 0) :
    descend a.chunkSize (a.attach node slot height).nodes i l k a.root =
      descend a.chunkSize a.nodes i l k a.root := by
  refine h.shape.descend_mono h.pos (fun p d hp hlink => ?_) h.root hne
  rw [attach, Nodes.link_slot, if_neg, alloc_slot _ hp]
  rintro ⟨rfl, rfl⟩
  exact hlink hfree

theorem Tree.attach (h : Tree a key) {node slot height : Nat} (hnode : a.Live node)
    (hheight : a.nodes.height node = height + 1) (hfree : a.nodes.slot node slot = 0) :
    Tree (a.attach node slot height) (Function.update key a.next (key node * a.chunkSize + slot)) ∧
      Grown a (a.attach node slot height) ∧ (a.attach node slot height).rootHeight = a.rootHeight := by
  have hne : ∀ p, a.Live p → p ≠ a.next := fun p hp => Nat.ne_of_lt hp.2
  have hroot : (a.attach node slot height).rootHeight = a.rootHeight := by
    simp only [rootHeight, VarArray.attach, VarArray.alloc, Nodes.link, Nodes.alloc,
      Function.update_of_ne (hne _ h.root)]
  refine ⟨⟨h.chunkSize, ?_, ⟨h.root.1, Nat.lt_succ_of_lt h.root.2⟩, ?_⟩, ?_, hroot⟩
  · refine (h.alloc_shape height _).link ⟨h.next_pos, Nat.lt_succ_self _⟩ ?_ ?_
    · simp only [Nodes.alloc, Function.update_self, Function.update_of_ne (hne _ hnode), hheight]
    · rw [Function.update_self, Function.update_of_ne (hne _ hnode)]
  · exact (Function.update_of_ne (hne _ h.root) ..).trans h.key_root
  · refine ⟨rfl, rfl, Nat.le_succ _, by omega, fun i hi hfind => ?_, fun i hi hfind => ?_, fun p hp => ?_,
      fun p hp hp' => ?_⟩
    · rw [find, hroot]
      exact descend_attach h hfree hfind
    · rw [find, hroot] at hfind ⊢
      obtain heq | hnew := h.shape.descend_attach h.pos h.fresh.1 h.root rfl hfind
      · refine .inl ⟨?_, heq⟩
        rwa [capacity, hroot] at hi
      · exact .inr (Nat.le_of_eq hnew.symm)
    · exact Function.update_of_ne (Nat.ne_of_lt hp) ..
    · have hlast : p = a.next := Nat.le_antisymm (Nat.le_of_lt_succ hp') hp
      rw [hlast]
      exact Function.update_self ..

theorem At.promote {l p : Nat} (hat : At a i l p) (h : Tree a key) : At a.promote i l p := by
  have hroot := rootHeight_promote a
  refine ⟨Nat.lt_of_lt_of_le hat.room (h.promote.2.1.capacity_le h.pos), hroot ▸ Nat.le_succ_of_le hat.level, ?_,
    hat.ne⟩
  rw [hroot]
  refine (descend_promote h i hat.level).trans ?_
  rw [if_pos (digit_of_lt_capacity hat.room), hat.path]

theorem At.attach {node slot height l p : Nat} (hat : At a i l p) (h : Tree a key) (hnode : a.Live node)
    (hheight : a.nodes.height node = height + 1) (hfree : a.nodes.slot node slot = 0) :
    At (a.attach node slot height) i l p := by
  obtain ⟨-, hgrown, hroot⟩ := h.attach hnode hheight hfree
  refine ⟨Nat.lt_of_lt_of_le hat.room (hgrown.capacity_le h.pos), hroot ▸ hat.level, ?_, hat.ne⟩
  rw [hroot]
  exact (descend_attach h hfree (hat.path.trans_ne hat.ne)).trans hat.path

theorem At.attach_child {node l : Nat} (hat : At a i (l + 1) node) (h : Tree a key)
    (hfree : a.nodes.slot node (digit a.chunkSize i (l + 1)) = 0) :
    At (a.attach node (digit a.chunkSize i (l + 1)) l) i l a.next := by
  obtain ⟨hlive, hheight, -⟩ := h.at_node hat
  obtain ⟨a', ha'⟩ : ∃ a', a.attach node (digit a.chunkSize i (l + 1)) l = a' := ⟨_, rfl⟩
  have hslot : a'.nodes.slot node (digit a'.chunkSize i (l + 1)) = a.next := by
    rw [← ha', VarArray.attach, Nodes.link_slot, if_pos ⟨rfl, rfl⟩]
  have hat' := hat.attach h hlive hheight hfree
  rw [ha'] at hat' ⊢
  have hchild := hat'.child (hslot.trans_ne h.fresh.2)
  rwa [hslot] at hchild

end Tree

/-! ## The path of an index -/

theorem heightLoop_spec {cs : Nat} (hcs : 2 ≤ cs) (idx : Nat) : ∀ (n h : Nat), idx < cs ^ (h + 1) + n →
    idx < cs ^ (heightLoop cs idx n (cs ^ (h + 1)) h + 1) ∧
      ∀ k, h ≤ k → k < heightLoop cs idx n (cs ^ (h + 1)) h → cs ^ (k + 1) ≤ idx := by
  intro n
  induction n with
  | zero =>
    intro h hlt
    exact ⟨hlt, fun k hk hk' => absurd hk (Nat.not_le.2 hk')⟩
  | succ n ih =>
    intro h hlt
    rw [heightLoop]
    split
    · rename_i hle
      have hpos : 0 < cs ^ (h + 1) := Nat.pow_pos (by omega)
      have hgrow : cs ^ (h + 1) + 1 ≤ cs ^ (h + 1 + 1) := Nat.pow_lt_pow_right (by omega) (Nat.lt_succ_self _)
      obtain ⟨hroom, hleast⟩ := ih (h + 1) (by omega)
      rw [← Nat.pow_succ]
      refine ⟨hroom, fun k hk hk' => ?_⟩
      obtain rfl | hk := Nat.eq_or_lt_of_le hk
      · exact hle
      · exact hleast k hk hk'
    · rename_i hnot
      exact ⟨Nat.lt_of_not_le hnot, fun k hk hk' => absurd hk (Nat.not_le.2 hk')⟩

theorem lt_neededHeight {cs idx : Nat} (hcs : 2 ≤ cs) : idx < cs ^ (neededHeight cs idx + 1) := by
  have h := (heightLoop_spec hcs idx idx 0 (by rw [Nat.pow_one]; omega)).1
  rwa [Nat.zero_add, Nat.pow_one] at h

section Path

variable [Zero V] {a a' : VarArray V} {key : Nat → Nat} (malloc : Nat → Bool) {idx : Nat}

theorem Tree.promotes (h : Tree a key) (k : Nat) : (∃ key', Tree (VarArray.promote^[k] a) key') ∧
    Grown a (VarArray.promote^[k] a) ∧ (VarArray.promote^[k] a).rootHeight = a.rootHeight + k ∧
      (VarArray.promote^[k] a).next = a.next + k := by
  induction k with
  | zero => exact ⟨⟨key, h⟩, .refl a, rfl, rfl⟩
  | succ k ih =>
    obtain ⟨⟨key', htree⟩, hgrown, hheight, hnext⟩ := ih
    obtain ⟨htree', hgrown', hheight'⟩ := htree.promote
    rw [Function.iterate_succ_apply']
    refine ⟨⟨_, htree'⟩, hgrown.trans hgrown' h.pos, by rw [hheight', hheight, Nat.add_assoc], ?_⟩
    rw [show (VarArray.promote^[k] a).promote.next = (VarArray.promote^[k] a).next + 1 from rfl, hnext, Nat.add_assoc]

theorem promoteLoop_spec (h : Tree a key) (needed : Nat) : ∀ n, needed ≤ a.rootHeight + n →
    ∃ ok k, promoteLoop malloc needed n a = (ok, promote^[k] a) ∧ (∀ j < k, malloc (a.next + j) = true) ∧
      (ok = true → needed ≤ a.rootHeight + k) ∧
      (ok = false → a.rootHeight + k < needed ∧ malloc (a.next + k) = false) := by
  intro n
  induction n generalizing a key with
  | zero =>
    intro hn
    exact ⟨true, 0, rfl, fun j hj => absurd hj (Nat.not_lt_zero j), fun _ => hn, nofun⟩
  | succ n ih =>
    intro hn
    rw [promoteLoop]
    split_ifs with hlow hmalloc
    · obtain ⟨htree, -, hheight⟩ := h.promote
      obtain ⟨ok, k, heq, hsome, hok, hfail⟩ := ih htree (by omega)
      have hnext : a.promote.next = a.next + 1 := rfl
      refine ⟨ok, k + 1, heq, fun j hj => ?_, fun h => ?_, fun h => ?_⟩
      · cases j with
        | zero => exact hmalloc
        | succ j =>
          have := hsome j (Nat.lt_of_succ_lt_succ hj)
          rwa [hnext, Nat.add_right_comm] at this
      · have := hok h
        omega
      · obtain ⟨hlt, hnone⟩ := hfail h
        rw [hnext, Nat.add_right_comm] at hnone
        exact ⟨by omega, hnone⟩
    · exact ⟨false, 0, rfl, fun j hj => absurd hj (Nat.not_lt_zero j), nofun,
        fun _ => ⟨hlow, by simpa using hmalloc⟩⟩
    · exact ⟨true, 0, rfl, fun j hj => absurd hj (Nat.not_lt_zero j), fun _ => Nat.le_of_not_lt hlow, nofun⟩

theorem walk_spec (h : Tree a key) : ∀ {level node : Nat}, At a idx level node →
    ∃ key', Tree (walk malloc idx level node a).2 key' ∧ Grown a (walk malloc idx level node a).2 ∧
      (walk malloc idx level node a).2.rootHeight = a.rootHeight ∧
      (walk malloc idx level node a).2.find idx = (walk malloc idx level node a).1 ∧
      ((∀ p, malloc p = true) → (walk malloc idx level node a).1 ≠ 0) := by
  intro level
  induction level generalizing a key with
  | zero =>
    intro node hat
    exact ⟨key, h, .refl a, rfl, hat.path, fun _ => hat.ne⟩
  | succ level ih =>
    intro node hat
    obtain ⟨hlive, hheight, -⟩ := h.at_node hat
    rw [walk]
    split_ifs with hslot hmalloc
    · exact ih h (hat.child hslot)
    · have hslot := not_not.1 hslot
      obtain ⟨htree, hgrown, hroot⟩ := h.attach hlive hheight hslot
      obtain ⟨key', htree', hgrown', hroot', hfind, hsome⟩ := ih htree (hat.attach_child h hslot)
      exact ⟨key', htree', hgrown.trans hgrown' h.pos, hroot'.trans hroot, hfind, hsome⟩
    · refine ⟨key, h, .refl a, rfl, ?_, fun hall => absurd (hall a.next) hmalloc⟩
      exact descend_zero (Nat.zero_le level) (Nat.ne_of_gt h.root.1)
        ((descend_succ hat.level hat.path hat.ne).trans (not_not.1 hslot))

/-- The `k`-th promotion that an index needs fails for want of memory. -/
def Blocked (malloc : Nat → Bool) (a : VarArray V) (idx k : Nat) : Prop :=
  a.rootHeight + k < neededHeight a.chunkSize idx ∧ (∀ j < k, malloc (a.next + j) = true) ∧
    malloc (a.next + k) = false

theorem ensurePathAllocated_spec (h : Tree a key) (idx : Nat) :
    (∃ k, Blocked malloc a idx k ∧ ensurePathAllocated malloc a idx = (0, promote^[k] a)) ∨
    (∃ p a' key', (∀ k, ¬ Blocked malloc a idx k) ∧ ensurePathAllocated malloc a idx = (p, a') ∧ Tree a' key' ∧
      Grown a a' ∧ idx < a'.capacity ∧ a'.find idx = p ∧ ((∀ p, malloc p = true) → p ≠ 0)) := by
  obtain ⟨ok, k, heq, hsome, hok, hfail⟩ := promoteLoop_spec malloc h
    (neededHeight a.chunkSize idx) (neededHeight a.chunkSize idx) (by omega)
  obtain ⟨⟨key', htree⟩, hgrown, hheight, -⟩ := h.promotes k
  cases ok with
  | false =>
    obtain ⟨hlow, hnone⟩ := hfail rfl
    exact .inl ⟨k, ⟨hlow, hsome, hnone⟩, by rw [ensurePathAllocated, heq]⟩
  | true =>
    have hhigh := hok rfl
    have hcap : idx < (promote^[k] a).capacity := by
      refine Nat.lt_of_lt_of_le (lt_neededHeight h.chunkSize) ?_
      rw [capacity, hgrown.chunkSize, hheight]
      exact Nat.pow_le_pow_right h.pos (Nat.succ_le_succ hhigh)
    obtain ⟨key'', htree', hgrown', hheight', hfind, hne⟩ := walk_spec malloc htree
      ⟨hcap, Nat.le_refl _, descend_self, Nat.ne_of_gt htree.root.1⟩
    refine .inr ⟨_, _, key'', fun j hj => ?_, by rw [ensurePathAllocated, heq], htree', hgrown.trans hgrown' h.pos,
      Nat.lt_of_lt_of_le hcap (hgrown'.capacity_le htree.pos), hfind, hne⟩
    obtain ⟨hlow, -, hnone⟩ := hj
    rw [hsome j (by omega)] at hnone
    cases hnone

theorem ensurePathAllocated_grown (h : Tree a key) (idx : Nat) :
    (∃ key', Tree (ensurePathAllocated malloc a idx).2 key') ∧ Grown a (ensurePathAllocated malloc a idx).2 := by
  obtain ⟨k, -, heq⟩ | ⟨p, a', key', -, heq, htree, hgrown, -⟩ := ensurePathAllocated_spec malloc h idx
  · rw [heq]
    exact ⟨(h.promotes k).1, (h.promotes k).2.1⟩
  · rw [heq]
    exact ⟨⟨key', htree⟩, hgrown⟩

end Path

end VarArray
end SphereVFS
