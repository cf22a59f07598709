import Mathlib.Logic.Function.Basic
import Mathlib.Data.List.Nodup
import Mathlib.Data.List.Perm.Subperm
import Mathlib.Tactic.Common

/-!
# Linked

Linked lists in memory: `next` gives the successor of a cell, and `null` ends the list.

The list is determined by its first cell, so it has no cycle. The operations of an intrusive free list
change one cell: a new cell in front, the first cell gone, a new cell behind the last.
-/

namespace Linked

variable {α : Type} {next next' : α → α} {null a b head : α} {l l' : List α}

/-- From `head` on, the cells are those of the list. -/
def Chain (next : α → α) (null : α) : α → List α → Prop
  | head, [] => head = null
  | head, a :: l => head = a ∧ a ≠ null ∧ Chain next null (next a) l

theorem Chain.ne_null (h : Chain next null head l) (ha : a ∈ l) : a ≠ null := by
  induction l generalizing head with
  | nil => simp at ha
  | cons b l ih =>
    obtain ⟨-, hb, hl⟩ := h
    obtain rfl | ha := List.mem_cons.1 ha
    · exact hb
    · exact ih hl ha

theorem Chain.head_eq (h : Chain next null head l) : head = l.head?.getD null := by
  cases l with
  | nil => exact h
  | cons a l => exact h.1

theorem Chain.unique (h : Chain next null head l) (h' : Chain next null head l') : l = l' := by
  induction l generalizing head l' with
  | nil =>
    cases l' with
    | nil => rfl
    | cons b l' => exact absurd (h'.1.symm.trans h) h'.2.1
  | cons a l ih =>
    cases l' with
    | nil => exact absurd (h.1.symm.trans h') h.2.1
    | cons b l' =>
      obtain ⟨rfl, -, hl⟩ := h
      obtain ⟨rfl, -, hl'⟩ := h'
      rw [ih hl hl']

theorem Chain.suffix (h : Chain next null head (l ++ a :: l')) : Chain next null a (a :: l') := by
  induction l generalizing head with
  | nil => exact h.1 ▸ h
  | cons b l ih => exact ih h.2.2

theorem Chain.nodup (h : Chain next null head l) : l.Nodup := by
  induction l generalizing head with
  | nil => exact List.nodup_nil
  | cons a l ih =>
    refine List.nodup_cons.2 ⟨fun ha => ?_, ih h.2.2⟩
    -- the list would go on from `a` in two ways
    obtain ⟨pre, post, rfl⟩ := List.append_of_mem ha
    have hshort := Chain.suffix (l := a :: pre) h
    have hlong : Chain next null a (a :: (pre ++ a :: post)) := h.1 ▸ h
    have hlength := congrArg List.length (hlong.unique hshort)
    simp only [List.length_cons, List.length_append] at hlength
    omega

theorem Chain.length_le {fresh : Nat → α} {n : Nat} (h : Chain next null head l)
    (hgiven : ∀ a ∈ l, ∃ k < n, fresh k = a) : l.length ≤ n := by
  have hsub : l ⊆ (List.range n).map fresh := by
    intro a ha
    obtain ⟨k, hk, rfl⟩ := hgiven a ha
    exact List.mem_map_of_mem (List.mem_range.2 hk)
  simpa using (List.subperm_of_subset h.nodup hsub).length_le

theorem Chain.congr (h : Chain next null head l) (hnext : ∀ a ∈ l, next' a = next a) :
    Chain next' null head l := by
  induction l generalizing head with
  | nil => exact h
  | cons a l ih =>
    refine ⟨h.1, h.2.1, ?_⟩
    rw [hnext a List.mem_cons_self]
    exact ih h.2.2 fun b hb => hnext b (List.mem_cons_of_mem a hb)

theorem Chain.push (h : Chain next null head l) (ha : a ≠ null) (hnext : next' a = head)
    (hsame : ∀ b ∈ l, next' b = next b) : Chain next' null a (a :: l) :=
  ⟨rfl, ha, hnext ▸ h.congr hsame⟩

theorem Chain.insert_after (h : Chain next null head (l ++ a :: l')) (hb : b ≠ null) (ha : next' a = b)
    (hnext : next' b = next a) (hsame : ∀ c ∈ l ++ l', next' c = next c) :
    Chain next' null head (l ++ a :: b :: l') := by
  induction l generalizing head with
  | nil =>
    refine ⟨h.1, h.2.1, ha, hb, ?_⟩
    rw [hnext]
    exact h.2.2.congr hsame
  | cons c l ih =>
    refine ⟨h.1, h.2.1, ?_⟩
    rw [hsame c List.mem_cons_self]
    exact ih h.2.2 fun d hd => hsame d (List.mem_cons_of_mem c hd)

theorem Chain.append_last (h : Chain next null head (l ++ [a])) (hb : b ≠ null) (ha : next' a = b)
    (hlast : next' b = null) (hsame : ∀ c ∈ l, next' c = next c) :
    Chain next' null head (l ++ [a, b]) := by
  obtain ⟨-, -, hnull⟩ := h.suffix
  exact h.insert_after hb ha (hlast.trans hnull.symm) (by simpa using hsame)

end Linked
