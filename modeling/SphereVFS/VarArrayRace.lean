import Mathlib.Data.Fintype.Basic
import Mathlib.Data.Finset.Lattice.Fold
import Mathlib.Order.Lattice.Nat
import SphereVFS.VarArrayRefine

/-!
# SphereVFS.VarArrayRace

Threads that call `var_array_set_base` on one array, each at its own index. A step is one load, store or
compare-and-swap; `malloc` succeeds. A node that is not yet installed belongs to its thread alone, and has
no address in the array until then.

`vfs_cas_i32` returns the value it found, and the loop that raises the count takes any value but zero for
success. So a thread whose compare-and-swap fails leaves the loop, with the count as the other thread set it.
-/

namespace SphereVFS
namespace VarArray

open DigitTree

/-- Where a call of `var_array_set_base` stands. -/
inductive Phase where
  /-- The root is loaded. -/
  | loadRoot
  /-- The loop that promotes the root, with `old_root`. -/
  | promote (old : Nat)
  /-- `old_root` goes into the first slot of the new level. -/
  | fill (old : Nat)
  | swapRoot (old : Nat)
  /-- The walk at a node; at a chunk the count is loaded. -/
  | child (level node : Nat)
  /-- The slot of the walk was empty. -/
  | install (level node : Nat)
  | swapCount (node : Nat) (expected : Int)
  | write (node : Nat)
  | done
deriving DecidableEq

structure Race (ι V : Type) where
  a : VarArray V
  phase : ι → Phase

namespace Race

variable {ι V : Type} [DecidableEq ι] [Zero V]

def start (a : VarArray V) : Race ι V := ⟨a, fun _ => .loadRoot⟩

/-- A thread goes on; the array may have changed. -/
def move (s : Race ι V) (t : ι) (a : VarArray V) (phase : Phase) : Race ι V :=
  ⟨a, Function.update s.phase t phase⟩

def step (idx : ι → Nat) (value : ι → V) (s : Race ι V) (t : ι) : Race ι V :=
  match s.phase t with
  | .loadRoot => s.move t s.a (.promote s.a.root)
  | .promote old =>
    if s.a.nodes.height old < neededHeight s.a.chunkSize (idx t) then s.move t s.a (.fill old)
    else s.move t s.a (.child s.a.rootHeight s.a.root)
  | .fill old => s.move t s.a (.swapRoot old)
  | .swapRoot old =>
    if s.a.root = old then s.move t s.a.promote (.promote s.a.next)
    else s.move t s.a (.promote s.a.root)
  | .child 0 node => s.move t s.a (.swapCount node s.a.count)
  | .child (level + 1) node =>
    if s.a.nodes.slot node (digit s.a.chunkSize (idx t) (level + 1)) ≠ 0 then
      s.move t s.a (.child level (s.a.nodes.slot node (digit s.a.chunkSize (idx t) (level + 1))))
    else s.move t s.a (.install level node)
  | .install level node =>
    if s.a.nodes.slot node (digit s.a.chunkSize (idx t) (level + 1)) = 0 then
      s.move t (s.a.attach node (digit s.a.chunkSize (idx t) (level + 1)) level) (.child level s.a.next)
    else s.move t s.a (.child level (s.a.nodes.slot node (digit s.a.chunkSize (idx t) (level + 1))))
  | .swapCount node expected =>
    if expected < idx t + 1 then
      -- `vfs_cas_i32` returns the count; zero loads it again
      s.move t (if s.a.count = expected then { s.a with count := int32 (idx t + 1) } else s.a)
        (if s.a.count = 0 then .child 0 node else .write node)
    else s.move t (s.a.write node (idx t) (value t)) .done
  | .write node => s.move t (s.a.write node (idx t) (value t)) .done
  | .done => s

def expects : Phase → Option Int
  | .swapCount _ expected => some expected
  | _ => none

def CountSeen (idx : ι → Nat) (s : Race ι V) (t : ι) : Prop :=
  ∀ expected ∈ expects (s.phase t), expected < idx t + 1 → s.a.count = expected ∨ idx t + 1 ≤ s.a.count

instance (idx : ι → Nat) (s : Race ι V) (t : ι) : Decidable (CountSeen idx s t) :=
  inferInstanceAs (Decidable (∀ expected ∈ expects (s.phase t), _ → _))

/-! ## Two threads -/

/-- Two threads, at indices five and ten of an empty array. Both load the count; then the first call runs to
its end, then the second. -/
def bothLoad : List Bool := [false, false, false, true, true, true, false, false, false, true, true]

theorem lost_count :
    (newBase 8 16).map (fun a : VarArray Nat =>
      let s := bothLoad.foldl (step (fun t => if t then 10 else 5) fun t => if t then 2 else 1) (start a)
      (s.phase false, s.phase true, s.a.count, s.a.lookup 5, s.a.lookup 10)) =
        some (.done, .done, 6, some 1, none) := by
  decide +kernel

/-! ## The invariant -/

def PhaseOk (a : VarArray V) (i : Nat) (v : V) : Phase → Prop
  | .loadRoot => True
  | .promote old | .fill old | .swapRoot old => a.Live old ∧ a.nodes.height old ≤ a.rootHeight
  | .child level node => At a i level node
  | .install level node => At a i (level + 1) node
  | .swapCount node expected => At a i 0 node ∧ expected ≤ a.count
  | .write node => At a i 0 node ∧ (i + 1 : Int) ≤ a.count
  | .done => ∃ p, At a i 0 p ∧ (i + 1 : Int) ≤ a.count ∧ a.entry p (i % a.chunkSize) = v

structure Extends (a a' : VarArray V) : Prop where
  chunkSize : a'.chunkSize = a.chunkSize
  live : ∀ p, a.Live p → a'.Live p ∧ a'.nodes.height p = a.nodes.height p
  rootHeight : a.rootHeight ≤ a'.rootHeight
  path : ∀ {i l p}, At a i l p → At a' i l p
  count : a.count ≤ a'.count

structure Inv (idx : ι → Nat) (value : ι → V) (c : Int) (s : Race ι V) : Prop where
  tree : ∃ key, Tree s.a key
  low : c ≤ s.a.count
  high : s.a.count = c ∨ ∃ t, s.a.count = idx t + 1
  phase : ∀ t, PhaseOk s.a (idx t) (value t) (s.phase t)

section Steps

variable {a a' : VarArray V} {key : Nat → Nat} {i : Nat} {v : V}

omit [Zero V] in
theorem Extends.refl (a : VarArray V) : Extends a a :=
  ⟨rfl, fun _ hp => ⟨hp, rfl⟩, Nat.le_refl _, id, Int.le_refl _⟩

theorem Extends.promote (h : Tree a key) : Extends a a.promote :=
  ⟨rfl, fun _ hp => ⟨⟨hp.1, Nat.lt_succ_of_lt hp.2⟩, Function.update_of_ne (Nat.ne_of_lt hp.2) ..⟩,
    h.promote.2.1.height, fun hat => hat.promote h, Int.le_refl _⟩

theorem Extends.attach {node slot height : Nat} (h : Tree a key) (hnode : a.Live node)
    (hheight : a.nodes.height node = height + 1) (hfree : a.nodes.slot node slot = 0) :
    Extends a (a.attach node slot height) :=
  ⟨rfl, fun _ hp => ⟨⟨hp.1, Nat.lt_succ_of_lt hp.2⟩, Function.update_of_ne (Nat.ne_of_lt hp.2) ..⟩,
    (h.attach hnode hheight hfree).2.1.height, fun hat => hat.attach h hnode hheight hfree, Int.le_refl _⟩

omit [Zero V] in
theorem Extends.withCount (entry : Nat → Nat → V) {count : Int} (h : a.count ≤ count) :
    Extends a { a with count, entry } :=
  ⟨rfl, fun _ hp => ⟨hp, rfl⟩, Nat.le_refl _, fun hat => ⟨hat.room, hat.level, hat.path, hat.ne⟩, h⟩

omit [Zero V] in
theorem PhaseOk.extends {phase : Phase} (h : PhaseOk a i v phase) (hext : Extends a a')
    (hentry : ∀ p, At a i 0 p → a'.entry p (i % a.chunkSize) = a.entry p (i % a.chunkSize)) :
    PhaseOk a' i v phase := by
  have hcount := hext.count
  have hold (old : Nat) (h : a.Live old ∧ a.nodes.height old ≤ a.rootHeight) :
      a'.Live old ∧ a'.nodes.height old ≤ a'.rootHeight := by
    obtain ⟨hlive, hheight⟩ := hext.live old h.1
    exact ⟨hlive, hheight ▸ h.2.trans hext.rootHeight⟩
  cases phase with
  | loadRoot => trivial
  | promote old => exact hold old h
  | fill old => exact hold old h
  | swapRoot old => exact hold old h
  | child level node => exact hext.path h
  | install level node => exact hext.path h
  | swapCount node expected => exact ⟨hext.path h.1, h.2.trans hcount⟩
  | write node => exact ⟨hext.path h.1, h.2.trans hcount⟩
  | done =>
    obtain ⟨p, hat, hlt, hv⟩ := h
    exact ⟨p, hext.path hat, hlt.trans hcount, by rw [hext.chunkSize, hentry p hat, hv]⟩

variable {idx : ι → Nat} {value : ι → V} {c : Int} {s : Race ι V} {t : ι}

omit [Zero V] in
theorem Inv.move (h : Inv idx value c s) {phase : Phase} (htree : ∃ key, Tree a' key) (hext : Extends s.a a')
    (hhigh : a'.count = c ∨ ∃ t, a'.count = idx t + 1)
    (hentry : ∀ u ≠ t, ∀ p, At s.a (idx u) 0 p →
      a'.entry p (idx u % s.a.chunkSize) = s.a.entry p (idx u % s.a.chunkSize))
    (hphase : PhaseOk a' (idx t) (value t) phase) : Inv idx value c (s.move t a' phase) := by
  refine ⟨htree, h.low.trans hext.count, hhigh, fun u => ?_⟩
  show PhaseOk a' (idx u) (value u) (Function.update s.phase t phase u)
  by_cases hu : u = t
  · subst hu
    rw [Function.update_self]
    exact hphase
  · rw [Function.update_of_ne hu]
    exact (h.phase u).extends hext (hentry u hu)

omit [Zero V] in
theorem Inv.load (h : Inv idx value c s) {phase : Phase} (hphase : PhaseOk s.a (idx t) (value t) phase) :
    Inv idx value c (s.move t s.a phase) :=
  h.move h.tree (.refl _) h.high (fun _ _ _ _ => rfl) hphase

omit [Zero V] in
theorem Inv.write (h : Inv idx value c s) (hinj : Function.Injective idx) {node : Nat} (hat : At s.a (idx t) 0 node)
    (hcount : (idx t + 1 : Int) ≤ s.a.count) :
    Inv idx value c (s.move t (s.a.write node (idx t) (value t)) .done) := by
  obtain ⟨key, htree⟩ := h.tree
  refine h.move (Tree.withCount h.tree _ _) (.withCount _ (Int.le_refl _)) h.high (fun u hu p hp => ?_)
    ⟨node, (Extends.withCount _ (Int.le_refl _)).path hat, hcount, ?_⟩
  · show Function.update s.a.entry node _ p _ = _
    by_cases hpn : p = node
    · -- the same chunk, at another index
      subst hpn
      rw [Function.update_self, Function.update_of_ne]
      refine htree.entries_apart hp.room hat.room (fun heq => hu (hinj heq)) (hp.path.trans_ne hp.ne) ?_
      exact hp.path.trans hat.path.symm
    · rw [Function.update_of_ne hpn]
  · show Function.update s.a.entry node _ node _ = _
    rw [Function.update_self]
    exact Function.update_self ..

omit [Zero V] in
theorem Inv.swapCount (h : Inv idx value c s) (hidx : ∀ t, idx t + 1 < 2 ^ 31) {node : Nat} {expected : Int}
    (hat : At s.a (idx t) 0 node) (hlow : expected < idx t + 1)
    (hseen : s.a.count = expected ∨ idx t + 1 ≤ s.a.count) :
    Inv idx value c (s.move t (if s.a.count = expected then { s.a with count := int32 (idx t + 1) } else s.a)
      (if s.a.count = 0 then .child 0 node else .write node)) := by
  have hint : int32 (idx t + 1) = idx t + 1 := int32_eq (hidx t)
  rw [hint]
  have hphase {a' : VarArray V} (hat' : At a' (idx t) 0 node) (hcount : (idx t + 1 : Int) ≤ a'.count) :
      PhaseOk a' (idx t) (value t) (if s.a.count = 0 then .child 0 node else .write node) := by
    split
    · exact hat'
    · exact ⟨hat', hcount⟩
  split
  · rename_i heq
    have hext : Extends s.a { s.a with count := (idx t + 1 : Int) } := .withCount s.a.entry (by omega)
    exact h.move (Tree.withCount h.tree _ _) hext (.inr ⟨t, rfl⟩) (fun _ _ _ _ => rfl)
      (hphase (hext.path hat) (Int.le_refl _))
  · rename_i hne
    exact h.load (hphase hat (hseen.resolve_left hne))

theorem Inv.step (h : Inv idx value c s) (hinj : Function.Injective idx) (hidx : ∀ t, idx t + 1 < 2 ^ 31)
    (hseen : CountSeen idx s t) : Inv idx value c (step idx value s t) := by
  obtain ⟨key, htree⟩ := h.tree
  have hok := h.phase t
  rw [CountSeen] at hseen
  rw [Race.step]
  cases hphase : s.phase t with
  | loadRoot => exact h.load ⟨htree.root, Nat.le_refl _⟩
  | promote old =>
    rw [hphase] at hok
    simp only
    split
    · exact h.load hok
    · rename_i hhigh
      refine h.load ⟨?_, Nat.le_refl _, descend_self, Nat.ne_of_gt htree.root.1⟩
      refine Nat.lt_of_lt_of_le (lt_neededHeight htree.chunkSize) (Nat.pow_le_pow_right htree.pos ?_)
      exact Nat.succ_le_succ ((Nat.le_of_not_lt hhigh).trans hok.2)
  | fill old =>
    rw [hphase] at hok
    exact h.load hok
  | swapRoot old =>
    simp only
    split
    · obtain ⟨htree', hgrown, hroot⟩ := htree.promote
      refine h.move ⟨_, htree'⟩ (.promote htree) h.high (fun u _ p hp => ?_) ⟨htree'.root, Nat.le_refl _⟩
      rw [hgrown.kept p (htree.at_node hp).1.2]
    · exact h.load ⟨htree.root, Nat.le_refl _⟩
  | child level node =>
    rw [hphase] at hok
    cases level with
    | zero => exact h.load ⟨hok, Int.le_refl _⟩
    | succ level =>
      simp only
      split
      · rename_i hslot
        exact h.load (hok.child hslot)
      · exact h.load hok
  | install level node =>
    rw [hphase] at hok
    obtain ⟨hlive, hheight, -⟩ := htree.at_node hok
    simp only
    split
    · rename_i hfree
      obtain ⟨htree', hgrown, -⟩ := htree.attach hlive hheight hfree
      refine h.move ⟨_, htree'⟩ (.attach htree hlive hheight hfree) h.high (fun u _ p hp => ?_)
        (At.attach_child hok htree hfree)
      rw [hgrown.kept p (htree.at_node hp).1.2]
    · rename_i hslot
      exact h.load (At.child hok hslot)
  | swapCount node expected =>
    rw [hphase] at hok hseen
    obtain ⟨hat, hle⟩ := hok
    simp only
    split
    · rename_i hlow
      exact h.swapCount hidx hat hlow (hseen _ rfl hlow)
    · rename_i hhigh
      exact h.write hinj hat (by omega)
  | write node =>
    rw [hphase] at hok
    exact h.write hinj hok.1 hok.2
  | done =>
    exact h

end Steps

/-! ## A thread alone -/

def Finishes (idx : ι → Nat) (value : ι → V) (t : ι) (s : Race ι V) : Prop :=
  ∃ n, ((fun s => step idx value s t)^[n] s).phase t = .done

section Alone

variable {idx : ι → Nat} {value : ι → V} {s : Race ι V} {t : ι}

omit [Zero V] in
theorem move_phase (s : Race ι V) (t : ι) (a : VarArray V) (phase : Phase) : (s.move t a phase).phase t = phase :=
  Function.update_self ..

theorem Finishes.next (h : Finishes idx value t (step idx value s t)) : Finishes idx value t s := by
  obtain ⟨n, hn⟩ := h
  exact ⟨n + 1, hn⟩

theorem Finishes.done {a : VarArray V} : Finishes idx value t (s.move t a .done) := ⟨0, move_phase ..⟩

theorem Finishes.write {node : Nat} (h : s.phase t = .write node) : Finishes idx value t s := by
  refine .next ?_
  rw [step, h]
  exact .done

theorem Finishes.swapCount_pos {node : Nat} {expected : Int} (h : s.phase t = .swapCount node expected)
    (hcount : s.a.count ≠ 0) : Finishes idx value t s := by
  refine .next ?_
  rw [step, h]
  simp only [if_neg hcount]
  split
  · exact .write (move_phase ..)
  · exact .done

theorem Finishes.count_pos {node : Nat} (h : s.phase t = .child 0 node) (hcount : s.a.count ≠ 0) :
    Finishes idx value t s := by
  refine .next ?_
  rw [step, h]
  exact .swapCount_pos (move_phase ..) hcount

theorem Finishes.swapCount_zero (hidx : idx t + 1 < 2 ^ 31) {node : Nat} (h : s.phase t = .swapCount node 0)
    (hcount : s.a.count = 0) : Finishes idx value t s := by
  have hne : int32 (idx t + 1) ≠ 0 := by
    rw [show int32 (idx t + 1) = idx t + 1 from int32_eq hidx]
    omega
  refine .next ?_
  rw [step, h]
  simp only [hcount, if_true]
  split
  · refine .count_pos (move_phase ..) ?_
    simp only [move]
    exact hne
  · exact .done

theorem Finishes.count (hidx : idx t + 1 < 2 ^ 31) {node : Nat} (h : s.phase t = .child 0 node) :
    Finishes idx value t s := by
  by_cases hcount : s.a.count = 0
  · refine .next ?_
    rw [step, h]
    simp only [hcount]
    exact .swapCount_zero hidx (move_phase ..) hcount
  · exact .count_pos h hcount

theorem Finishes.child (hidx : idx t + 1 < 2 ^ 31) {level node : Nat} (h : s.phase t = .child level node) :
    Finishes idx value t s := by
  induction level generalizing s node with
  | zero => exact .count hidx h
  | succ level ih =>
    refine .next ?_
    rw [step, h]
    simp only
    split
    · exact ih (move_phase ..)
    · rename_i hfree
      -- alone, the slot is still empty at the swap
      refine .next ?_
      rw [step, move_phase]
      simp only
      split
      · exact ih (move_phase ..)
      · exact ih (move_phase ..)

theorem Finishes.fill {old : Nat} (h : s.phase t = .fill old)
    (hswap : ∀ s', s'.a = s.a → s'.phase t = .swapRoot old → Finishes idx value t s') : Finishes idx value t s := by
  refine .next ?_
  rw [step, h]
  exact hswap _ rfl (move_phase ..)

theorem Finishes.promote_root (hidx : idx t + 1 < 2 ^ 31) (n : Nat)
    (hn : neededHeight s.a.chunkSize (idx t) ≤ s.a.rootHeight + n) (h : s.phase t = .promote s.a.root) :
    Finishes idx value t s := by
  induction n generalizing s with
  | zero =>
    refine .next ?_
    rw [step, h]
    simp only
    split
    · rename_i hlow
      exact absurd hlow (Nat.not_lt.2 hn)
    · exact .child hidx (move_phase ..)
  | succ n ih =>
    refine .next ?_
    rw [step, h]
    simp only
    split
    · refine .fill (move_phase ..) fun s' ha hphase => .next ?_
      replace ha : s'.a = s.a := ha
      rw [step, hphase, ha]
      simp only [if_true]
      refine ih ?_ (move_phase ..)
      show neededHeight s.a.chunkSize (idx t) ≤ s.a.promote.rootHeight + n
      rw [rootHeight_promote]
      omega
    · exact .child hidx (move_phase ..)

theorem Finishes.promote_any (hidx : idx t + 1 < 2 ^ 31) (h : s.phase t = .promote s.a.root) :
    Finishes idx value t s :=
  .promote_root hidx (neededHeight s.a.chunkSize (idx t)) (Nat.le_add_left _ _) h

theorem Finishes.swapRoot (hidx : idx t + 1 < 2 ^ 31) {old : Nat} (h : s.phase t = .swapRoot old) :
    Finishes idx value t s := by
  refine .next ?_
  rw [step, h]
  simp only
  split
  · exact .promote_any hidx (move_phase ..)
  · exact .promote_any hidx (move_phase ..)

theorem finishes (hidx : idx t + 1 < 2 ^ 31) (s : Race ι V) : Finishes idx value t s := by
  cases hphase : s.phase t with
  | loadRoot =>
    refine .next ?_
    rw [step, hphase]
    exact .promote_any hidx (move_phase ..)
  | promote old =>
    refine .next ?_
    rw [step, hphase]
    simp only
    split
    · exact .fill (move_phase ..) fun s' _ h => .swapRoot hidx h
    · exact .child hidx (move_phase ..)
  | fill old => exact .fill hphase fun s' _ h => .swapRoot hidx h
  | swapRoot old => exact .swapRoot hidx hphase
  | child level node => exact .child hidx hphase
  | install level node =>
    refine .next ?_
    rw [step, hphase]
    simp only
    split
    · exact .child hidx (move_phase ..)
    · exact .child hidx (move_phase ..)
  | swapCount node expected =>
    refine .next ?_
    rw [step, hphase]
    simp only
    split
    · by_cases hcount : s.a.count = 0
      · rw [if_pos hcount]
        exact .count hidx (move_phase ..)
      · rw [if_neg hcount]
        exact .write (move_phase ..)
    · exact .done
  | write node => exact .write hphase
  | done => exact ⟨0, hphase⟩

end Alone

/-- Concurrent sparse array sets: while no swap of the count fails with the count too low, the calls end with
the count of all indices and with every value at its index; and every call returns if it runs alone. -/
theorem concurrent_sets [Fintype ι] {a₀ : VarArray V} (ha₀ : Sound a₀) {idx : ι → Nat} {value : ι → V}
    (hinj : Function.Injective idx) (hidx : ∀ t, idx t + 1 < 2 ^ 31) {sched : List ι}
    (hseen : Run.AllSteps (step idx value) (CountSeen idx) (start a₀) sched) {s : Race ι V}
    (hs : sched.foldl (step idx value) (start a₀) = s) :
    ((∀ t, s.phase t = .done) →
      s.a.count = max a₀.count (Finset.univ.sup fun t => idx t + 1 : Nat) ∧
      ∀ t, s.a.lookup (idx t) = some (value t)) ∧
    ∀ t, Finishes idx value t s := by
  have h : Inv idx value a₀.count s := by
    rw [← hs]
    refine Run.invariant (Inv idx value a₀.count) (fun s t h hseen => h.step hinj hidx hseen) ?_ hseen
    exact ⟨ha₀.tree, Int.le_refl _, .inl rfl, fun _ => trivial⟩
  refine ⟨fun hdone => ⟨?_, fun t => ?_⟩, fun t => finishes (hidx t) s⟩
  · have hfinal (t : ι) : (idx t + 1 : Int) ≤ s.a.count := by
      have hok := h.phase t
      rw [hdone t] at hok
      obtain ⟨-, -, hle, -⟩ := hok
      exact hle
    have hle : (Finset.univ.sup fun t => idx t + 1) ≤ s.a.count.toNat :=
      Finset.sup_le fun t _ => by have := hfinal t; omega
    have hlow := h.low
    have hnonneg := ha₀.count
    obtain heq | ⟨t, ht⟩ := h.high
    · omega
    · have : idx t + 1 ≤ Finset.univ.sup fun t => idx t + 1 :=
        Finset.le_sup (f := fun t => idx t + 1) (Finset.mem_univ t)
      omega
  · have hok := h.phase t
    rw [hdone t] at hok
    obtain ⟨p, hat, hlt, hv⟩ := hok
    rw [lookup_eq_some, show s.a.find (idx t) = p from hat.path]
    exact ⟨by omega, hat.ne, hv⟩

def inTurn : List Bool := List.replicate 6 false ++ List.replicate 5 true

theorem concurrent_sets_in_turn :
    ∃ (a₀ : VarArray Nat) (s : Race Bool Nat), newBase 8 16 = some a₀ ∧
      inTurn.foldl (step (fun t => if t then 10 else 5) fun t => if t then 2 else 1) (start a₀) = s ∧
      s.a.count = 11 ∧ s.a.lookup 10 = some 2 := by
  have hrun : (newBase 8 16).map (fun a : VarArray Nat =>
      let s := inTurn.foldl (step (fun t => if t then 10 else 5) fun t => if t then 2 else 1) (start a)
      (decide (Run.AllSteps (step (fun t => if t then 10 else 5) fun t => if t then 2 else 1)
        (CountSeen fun t => if t then 10 else 5) (start a) inTurn), decide (∀ t, s.phase t = .done))) =
          some (true, true) := by
    decide +kernel
  obtain ⟨a₀, hnew⟩ : ∃ a₀ : VarArray Nat, newBase 8 16 = some a₀ := ⟨_, rfl⟩
  obtain ⟨hholds, hcount⟩ := newBase_holds hnew
  simp only [hnew, Option.map_some, Option.some.injEq, Prod.mk.injEq, decide_eq_true_eq] at hrun
  obtain ⟨hseen, hdone⟩ := hrun
  obtain ⟨hend, -⟩ := concurrent_sets ⟨hholds.tree, Int.le_of_eq hcount.symm⟩ (by decide) (by decide) hseen rfl
  refine ⟨a₀, _, hnew, rfl, ?_, (hend hdone).2 true⟩
  rw [(hend hdone).1, hcount]
  decide

end Race
end VarArray
end SphereVFS
