import Mathlib.Data.List.Nodup
import Mathlib.Data.Nat.ModEq
import Mathlib.Logic.Function.Basic
import Mathlib.Tactic.Common

/-!
# SphereVFS.Lib.Probe

Open addressing with linear probing. A table has `C` cells; the search for a key starts at its home cell
and stops at an empty cell or at the key. A deleted key leaves a dead cell, which a search passes.

The table is sound when no key stands in two cells and no cell between the home of a key and its cell is
empty. Filling a cell keeps that, if the cells on the way there are not empty.
-/

namespace Probe

inductive Cell (κ ν : Type) where
  | empty
  | dead
  | full (key : κ) (value : ν)

/-- The first of `n` cells from `i` on, around the table, that meets a condition. -/
def scan (p : Nat → Prop) [DecidablePred p] (C : Nat) : Nat → Nat → Option Nat
  | 0, _ => none
  | n + 1, i => if p i then some i else scan p C n ((i + 1) % C)

section Scan

variable {p : Nat → Prop} [DecidablePred p] {C n i q : Nat}

theorem scan_some (hi : i < C) (h : scan p C n i = some q) :
    ∃ j < n, q = (i + j) % C ∧ p q ∧ ∀ j' < j, ¬ p ((i + j') % C) := by
  induction n generalizing i with
  | zero => cases h
  | succ n ih =>
    rw [scan] at h
    split at h
    · rename_i hp
      cases h
      exact ⟨0, Nat.succ_pos n, (Nat.mod_eq_of_lt hi).symm, hp, fun j' hj' => absurd hj' (Nat.not_lt_zero j')⟩
    · rename_i hp
      obtain ⟨j, hj, rfl, hstop, hpass⟩ := ih (Nat.mod_lt _ (Nat.zero_lt_of_lt hi)) h
      refine ⟨j + 1, Nat.succ_lt_succ hj, ?_, hstop, fun j' hj' => ?_⟩
      · rw [Nat.mod_add_mod, Nat.add_right_comm, Nat.add_assoc]
      · cases j' with
        | zero => rwa [Nat.add_zero, Nat.mod_eq_of_lt hi]
        | succ j' =>
          have := hpass j' (Nat.lt_of_succ_lt_succ hj')
          rwa [Nat.mod_add_mod, Nat.add_right_comm, Nat.add_assoc] at this

theorem scan_none (hi : i < C) (h : scan p C n i = none) : ∀ j < n, ¬ p ((i + j) % C) := by
  induction n generalizing i with
  | zero => exact fun j hj => absurd hj (Nat.not_lt_zero j)
  | succ n ih =>
    rw [scan] at h
    split at h
    · cases h
    · rename_i hp
      intro j hj
      cases j with
      | zero => rwa [Nat.add_zero, Nat.mod_eq_of_lt hi]
      | succ j =>
        have := ih (Nat.mod_lt _ (Nat.zero_lt_of_lt hi)) h j (Nat.lt_of_succ_lt_succ hj)
        rwa [Nat.mod_add_mod, Nat.add_right_comm, Nat.add_assoc] at this

theorem exists_distance (hi : i < C) (hq : q < C) : ∃ j < C, q = (i + j) % C := by
  by_cases hle : i ≤ q
  · exact ⟨q - i, by omega, by rw [Nat.add_sub_cancel' hle, Nat.mod_eq_of_lt hq]⟩
  · exact ⟨q + C - i, by omega, by rw [Nat.add_sub_cancel' (by omega), Nat.add_mod_right, Nat.mod_eq_of_lt hq]⟩

theorem distance_unique {j j' : Nat} (hj : j < C) (hj' : j' < C) (h : (i + j) % C = (i + j') % C) : j = j' := by
  have hmod : j ≡ j' [MOD C] := Nat.ModEq.add_left_cancel' i h
  rwa [Nat.ModEq, Nat.mod_eq_of_lt hj, Nat.mod_eq_of_lt hj'] at hmod

end Scan

variable {κ ν β : Type} {C : Nat} {home : κ → Nat} {t : Nat → Cell κ ν} {k : κ} {v : ν} {q : Nat} {c : Cell κ ν}

def Cell.Stops (k : κ) : Cell κ ν → Prop
  | .empty => True
  | .dead => False
  | .full k' _ => k' = k

def Cell.Opens (k : κ) : Cell κ ν → Prop
  | .full k' _ => k' = k
  | _ => True

instance [DecidableEq κ] (k : κ) (c : Cell κ ν) : Decidable (c.Opens k) :=
  match c with
  | .empty => isTrue trivial
  | .dead => isTrue trivial
  | .full k' _ => inferInstanceAs (Decidable (k' = k))

instance [DecidableEq κ] (k : κ) (c : Cell κ ν) : Decidable (c.Stops k) :=
  match c with
  | .empty => isTrue trivial
  | .dead => isFalse id
  | .full k' _ => inferInstanceAs (Decidable (k' = k))

def Cell.entry : Cell κ ν → Option (κ × ν)
  | .full k v => some (k, v)
  | _ => none

def Cell.tomb : Cell κ ν → Option Unit
  | .dead => some ()
  | _ => none

structure Table (C : Nat) (home : κ → Nat) (t : Nat → Cell κ ν) : Prop where
  home_lt : ∀ k, home k < C
  outside : ∀ i, C ≤ i → t i = .empty
  unique : ∀ i j k v w, t i = .full k v → t j = .full k w → i = j
  path : ∀ k v j, j < C → t ((home k + j) % C) = .full k v → ∀ j' < j, t ((home k + j') % C) ≠ .empty

theorem Table.lt (h : Table C home t) (hq : t q ≠ .empty) : q < C := by
  by_contra hge
  exact hq (h.outside q (Nat.le_of_not_lt hge))

theorem Table.update (h : Table C home t) (hq : q < C) (hne : c ≠ .empty)
    (hfull : ∀ k v, c = .full k v → (∀ i w, i ≠ q → t i ≠ .full k w) ∧
      ∀ j < C, (home k + j) % C = q → ∀ j' < j, t ((home k + j') % C) ≠ .empty) :
    Table C home (Function.update t q c) := by
  refine ⟨h.home_lt, fun i hi => ?_, fun i j k v w hv hw => ?_, fun k v j hj hv j' hj' => ?_⟩
  · rw [Function.update_of_ne (by omega), h.outside i hi]
  · simp only [Function.update_apply] at hv hw
    split_ifs at hv hw with hi hj hj
    · exact hi.trans hj.symm
    · exact absurd hw ((hfull k v hv).1 j w hj)
    · exact absurd hv ((hfull k w hw).1 i v hi)
    · exact h.unique i j k v w hv hw
  · have hkeep : t ((home k + j') % C) ≠ .empty → Function.update t q c ((home k + j') % C) ≠ .empty := by
      intro hold
      rw [Function.update_apply]
      split_ifs
      · exact hne
      · exact hold
    simp only [Function.update_apply] at hv
    split_ifs at hv with hat
    · exact hkeep ((hfull k v hv).2 j hj hat j' hj')
    · exact hkeep (h.path k v j hj hv j' hj')

section Search

variable [DecidableEq κ]

/-- A search finds the cell of the key; or the key is not there, and the search ends at an empty cell if the
table has one. -/
theorem Table.search (h : Table C home t) (k : κ) :
    (∃ q v, scan (fun i => (t i).Stops k) C C (home k) = some q ∧ t q = .full k v) ∨
    (∀ i v, t i ≠ .full k v) ∧
      ((∃ q, scan (fun i => (t i).Stops k) C C (home k) = some q ∧ q < C ∧ t q = .empty) ∨
        scan (fun i => (t i).Stops k) C C (home k) = none ∧ ∀ i < C, t i ≠ .empty) := by
  cases hscan : scan (fun i => (t i).Stops k) C C (home k) with
  | none =>
    have hpass (i : Nat) (hi : i < C) : ¬ (t i).Stops k := by
      obtain ⟨j, hj, rfl⟩ := exists_distance (h.home_lt k) hi
      exact scan_none (h.home_lt k) hscan j hj
    refine .inr ⟨fun i v hi => ?_, .inr ⟨rfl, fun i hi hempty => ?_⟩⟩
    · have hstop := hpass i (h.lt (by rw [hi]; nofun))
      rw [hi] at hstop
      exact hstop rfl
    · have hstop := hpass i hi
      rw [hempty] at hstop
      exact hstop trivial
  | some q =>
    obtain ⟨j, hj, rfl, hstop, hpass⟩ := scan_some (h.home_lt k) hscan
    cases hq : t ((home k + j) % C) with
    | dead =>
      rw [hq] at hstop
      cases hstop
    | full k' v =>
      rw [hq] at hstop
      obtain rfl : k' = k := hstop
      exact .inl ⟨_, v, rfl, hq⟩
    | empty =>
      refine .inr ⟨fun i v hi => ?_, .inl ⟨_, rfl, Nat.mod_lt _ (Nat.zero_lt_of_lt hj), hq⟩⟩
      obtain ⟨j', hj', rfl⟩ := exists_distance (h.home_lt k) (h.lt (by rw [hi]; nofun))
      obtain hlt | rfl | hlt := Nat.lt_trichotomy j' j
      · refine hpass j' hlt ?_
        rw [hi]
        exact rfl
      · rw [hq] at hi
        cases hi
      · exact h.path k v j' hj' hi j hlt hq

theorem Table.insert (h : Table C home t) (hout : ∀ i w, t i ≠ .full k w)
    (hscan : scan (fun i => (t i).Opens k) C C (home k) = some q) (v : ν) :
    q < C ∧ (t q).entry = none ∧ Table C home (Function.update t q (.full k v)) := by
  obtain ⟨j, hj, rfl, hopen, hpass⟩ := scan_some (h.home_lt k) hscan
  have hlt : (home k + j) % C < C := Nat.mod_lt _ (Nat.zero_lt_of_lt hj)
  refine ⟨hlt, ?_, h.update hlt nofun ?_⟩
  · cases hq : t ((home k + j) % C) with
    | empty => rfl
    | dead => rfl
    | full k' w =>
      rw [hq] at hopen
      obtain rfl : k' = k := hopen
      exact absurd hq (hout _ w)
  · rintro _ _ ⟨⟩
    refine ⟨fun i w _ => hout i w, fun i hi heq j' hj' hempty => ?_⟩
    obtain rfl := distance_unique hi hj heq
    refine hpass j' hj' ?_
    rw [hempty]
    trivial

end Search

/-! ## The map -/

def Maps (t : Nat → Cell κ ν) (M : κ → Option ν) : Prop := ∀ k v, M k = some v ↔ ∃ i, t i = .full k v

def entries (C : Nat) (t : Nat → Cell κ ν) : List (κ × ν) := (List.range C).filterMap fun i => (t i).entry

def tombs (C : Nat) (t : Nat → Cell κ ν) : List Unit := (List.range C).filterMap fun i => (t i).tomb

theorem Cell.entry_eq_some {e : κ × ν} : c.entry = some e ↔ c = .full e.1 e.2 := by
  cases c <;> simp [entry, Prod.ext_iff]

theorem Maps.update [DecidableEq κ] {M : κ → Option ν} (h : Maps t M) (honly : ∀ i w, i ≠ q → t i ≠ .full k w)
    (hold : ∀ e, (t q).entry = some e → e.1 = k) (hnew : ∀ e, c.entry = some e → e.1 = k) :
    Maps (Function.update t q c) (Function.update M k (c.entry.map Prod.snd)) := by
  intro k' v
  by_cases hk : k' = k
  · subst hk
    rw [Function.update_self, Option.map_eq_some_iff]
    constructor
    · rintro ⟨⟨k₁, v⟩, he, rfl⟩
      obtain rfl := hnew _ he
      exact ⟨q, by rw [Function.update_self, Cell.entry_eq_some.1 he]⟩
    · rintro ⟨i, hi⟩
      rw [Function.update_apply] at hi
      split_ifs at hi
      · exact ⟨(k', v), Cell.entry_eq_some.2 hi, rfl⟩
      · rename_i hne
        exact absurd hi (honly i v hne)
  · rw [Function.update_of_ne hk, h k' v]
    constructor
    · rintro ⟨i, hi⟩
      refine ⟨i, ?_⟩
      rw [Function.update_of_ne, hi]
      rintro rfl
      exact hk (hold (k', v) (Cell.entry_eq_some.2 hi))
    · rintro ⟨i, hi⟩
      rw [Function.update_apply] at hi
      split_ifs at hi
      · exact absurd (hnew (k', v) (Cell.entry_eq_some.2 hi)) hk
      · exact ⟨i, hi⟩

theorem Table.mem_entries (h : Table C home t) {e : κ × ν} : e ∈ entries C t ↔ ∃ i, t i = .full e.1 e.2 := by
  simp only [entries, List.mem_filterMap, List.mem_range, Cell.entry_eq_some]
  refine ⟨fun ⟨i, _, hi⟩ => ⟨i, hi⟩, fun ⟨i, hi⟩ => ⟨i, h.lt (by rw [hi]; nofun), hi⟩⟩

theorem Table.nodup_entries (h : Table C home t) : ((entries C t).map Prod.fst).Nodup := by
  rw [entries, List.map_filterMap]
  refine List.nodup_range.filterMap fun i j k hi hj => ?_
  obtain ⟨e, he, rfl⟩ := Option.map_eq_some_iff.1 hi
  obtain ⟨e', he', hk⟩ := Option.map_eq_some_iff.1 hj
  exact h.unique i j e.1 e.2 e'.2 (Cell.entry_eq_some.1 he) (by rw [← hk]; exact Cell.entry_eq_some.1 he')

theorem filterMap_update (f : Cell κ ν → Option β) (t : Nat → Cell κ ν) (hq : q < C) :
    ∃ l r, ∀ c, (List.range C).filterMap (fun i => f (Function.update t q c i)) = l ++ (f c).toList ++ r := by
  obtain ⟨l, r, hlr⟩ := List.append_of_mem (List.mem_range.2 hq)
  have hnodup := hlr ▸ List.nodup_range (n := C)
  have hnot : q ∉ l ∧ q ∉ r := by
    rw [List.nodup_middle, List.nodup_cons, List.mem_append, not_or] at hnodup
    exact hnodup.1
  have hpart (l : List Nat) (hl : q ∉ l) (c : Cell κ ν) :
      l.filterMap (fun i => f (Function.update t q c i)) = l.filterMap fun i => f (t i) := by
    refine List.filterMap_congr fun i hi => ?_
    rw [Function.update_of_ne]
    rintro rfl
    exact hl hi
  refine ⟨l.filterMap fun i => f (t i), r.filterMap fun i => f (t i), fun c => ?_⟩
  rw [hlr, List.filterMap_append, List.filterMap_cons, hpart l hnot.1, hpart r hnot.2, Function.update_self]
  cases f c <;> simp

theorem length_update (f : Cell κ ν → Option β) (t : Nat → Cell κ ν) (hq : q < C) (c : Cell κ ν) :
    ((List.range C).filterMap (fun i => f (Function.update t q c i))).length + (f (t q)).toList.length =
      ((List.range C).filterMap (fun i => f (t i))).length + (f c).toList.length := by
  obtain ⟨l, r, hlr⟩ := filterMap_update f t hq
  have hold := hlr (t q)
  rw [Function.update_eq_self] at hold
  rw [hlr c, hold]
  simp only [List.length_append]
  omega

theorem length_range_succ (f : Cell κ ν → Option β) (C : Nat) (t : Nat → Cell κ ν) :
    ((List.range (C + 1)).filterMap fun i => f (t i)).length =
      ((List.range C).filterMap fun i => f (t i)).length + (f (t C)).toList.length := by
  rw [List.range_succ, List.filterMap_append, List.length_append, List.filterMap_cons, List.filterMap_nil]
  cases f (t C) <;> rfl

theorem load_eq_iff (C : Nat) (t : Nat → Cell κ ν) : (entries C t).length + (tombs C t).length ≤ C ∧
    ((entries C t).length + (tombs C t).length = C ↔ ∀ i < C, t i ≠ .empty) := by
  induction C with
  | zero => simp [entries, tombs]
  | succ C ih =>
    obtain ⟨hle, hiff⟩ := ih
    have hone : (entries (C + 1) t).length = (entries C t).length + _ := length_range_succ Cell.entry C t
    have htwo : (tombs (C + 1) t).length = (tombs C t).length + _ := length_range_succ Cell.tomb C t
    have hcell : (t C).entry.toList.length + (t C).tomb.toList.length ≤ 1 ∧
        ((t C).entry.toList.length + (t C).tomb.toList.length = 1 ↔ t C ≠ .empty) := by
      cases t C <;> simp [Cell.entry, Cell.tomb]
    rw [Nat.forall_lt_succ_right, ← hiff, ← hcell.2]
    omega

end Probe
