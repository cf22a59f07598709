import Mathlib.Algebra.Group.Nat.Defs
import Mathlib.Logic.Function.Basic
import Mathlib.Tactic.Common

/-!
# SphereVFS.Lib.DigitTree

Trees over indices: the children of a node at height `h` are found by one digit of the index, the one of
`m ^ h`. Nodes are addresses, `0` for none; the leaves have height `0` and cover `m` indices each.

A node is labelled with the index divided by the number of indices it covers. So two indices that lead to
one leaf differ in their last digit, and a new node or a new root leaves all paths as they were.
-/

namespace DigitTree

structure Nodes where
  height : Nat → Nat
  slot : Nat → Nat → Nat

/-- The digit of index `i` at a node of height `h`. -/
def digit (m i h : Nat) : Nat := i / m ^ h % m

/-- From node `p` of height `h` down to height `l` along index `i`; `0` if the path ends before. -/
def descend (m : Nat) (N : Nodes) (i l : Nat) : Nat → Nat → Nat
  | 0, p => p
  | h + 1, p =>
    if h + 1 ≤ l then p
    else if N.slot p (digit m i (h + 1)) = 0 then 0
    else descend m N i l h (N.slot p (digit m i (h + 1)))

/-- Children are one lower than their parents and labelled by their digits. -/
structure Shape (m : Nat) (N : Nodes) (live : Nat → Prop) (key : Nat → Nat) : Prop where
  null : ¬ live 0
  child : ∀ p d, live p → d < m → N.slot p d ≠ 0 → live (N.slot p d) ∧
    N.height p = N.height (N.slot p d) + 1 ∧ key (N.slot p d) = key p * m + d

variable {m i l h p q c d : Nat} {N N' : Nodes} {live : Nat → Prop} {key : Nat → Nat}

theorem digit_lt (hm : 0 < m) : digit m i h < m := Nat.mod_lt _ hm

theorem div_pow_succ (m i h : Nat) : i / m ^ (h + 1) = i / m ^ h / m := by
  rw [Nat.pow_succ, Nat.div_div_eq_div_mul]

theorem div_eq_child (m i h : Nat) : i / m ^ h = i / m ^ (h + 1) * m + digit m i h := by
  rw [div_pow_succ, digit, Nat.mul_comm, Nat.div_add_mod]

theorem descend_self : descend m N i h h p = p := by
  cases h with
  | zero => rfl
  | succ h => rw [descend, if_pos (Nat.le_refl _)]

theorem descend_child (hl : l ≤ h) (hne : descend m N i l (h + 1) p ≠ 0) :
    N.slot p (digit m i (h + 1)) ≠ 0 ∧
      descend m N i l (h + 1) p = descend m N i l h (N.slot p (digit m i (h + 1))) := by
  rw [descend, if_neg (Nat.not_le.2 (Nat.lt_succ_of_le hl))] at hne ⊢
  by_cases hslot : N.slot p (digit m i (h + 1)) = 0
  · rw [if_pos hslot] at hne
    exact absurd rfl hne
  · exact ⟨hslot, if_neg hslot⟩

theorem Shape.descend (hs : Shape m N live key) (hm : 0 < m) (hp : live p) (hh : N.height p = h)
    (hi : i / m ^ (h + 1) = key p) (hl : l ≤ h) (hne : descend m N i l h p ≠ 0) :
    live (descend m N i l h p) ∧ N.height (descend m N i l h p) = l ∧
      i / m ^ (l + 1) = key (descend m N i l h p) := by
  induction h generalizing p with
  | zero =>
    obtain rfl := Nat.le_zero.1 hl
    exact ⟨hp, hh, hi⟩
  | succ h ih =>
    by_cases hlast : l = h + 1
    · subst hlast
      rw [descend_self]
      exact ⟨hp, hh, hi⟩
    · have hl : l ≤ h := by omega
      obtain ⟨hslot, hpath⟩ := descend_child hl hne
      rw [hpath] at hne ⊢
      obtain ⟨hlive, hheight, hkey⟩ := hs.child p _ hp (digit_lt hm) hslot
      refine ih hlive (by omega) ?_ hl hne
      rw [hkey, ← hi]
      exact div_eq_child m i (h + 1)

theorem descend_succ (hl : l < h) (hq : descend m N i (l + 1) h p = q) (hne : q ≠ 0) :
    descend m N i l h p = N.slot q (digit m i (l + 1)) := by
  induction h generalizing p with
  | zero => cases hl
  | succ h ih =>
    rw [descend] at hq ⊢
    rw [if_neg (by omega)]
    by_cases hlast : h + 1 ≤ l + 1
    · rw [if_pos hlast] at hq
      obtain rfl : l = h := by omega
      subst hq
      split
      · rename_i hslot
        exact hslot.symm
      · exact descend_self
    · rw [if_neg hlast] at hq
      split_ifs at hq ⊢ with hslot
      · exact absurd hq.symm hne
      · exact ih (by omega) hq

theorem Shape.descend_mono (hs : Shape m N live key) (hm : 0 < m)
    (hkeep : ∀ p d, live p → N.slot p d ≠ 0 → N'.slot p d = N.slot p d) (hp : live p)
    (hne : DigitTree.descend m N i l h p ≠ 0) :
    DigitTree.descend m N' i l h p = DigitTree.descend m N i l h p := by
  induction h generalizing p with
  | zero => rfl
  | succ h ih =>
    by_cases hlast : h + 1 ≤ l
    · rw [DigitTree.descend, if_pos hlast, DigitTree.descend, if_pos hlast]
    · obtain ⟨hslot, hpath⟩ := descend_child (by omega) hne
      rw [hpath] at hne ⊢
      rw [DigitTree.descend, if_neg hlast, hkeep p _ hp hslot, if_neg hslot]
      exact ih (hs.child p _ hp (digit_lt hm) hslot).1 hne

theorem descend_zero {l' : Nat} (hl : l' ≤ l) (hp : p ≠ 0) (hzero : descend m N i l h p = 0) :
    descend m N i l' h p = 0 := by
  induction h generalizing p with
  | zero => exact absurd hzero hp
  | succ h ih =>
    rw [descend] at hzero ⊢
    by_cases hlast : h + 1 ≤ l
    · rw [if_pos hlast] at hzero
      exact absurd hzero hp
    · rw [if_neg hlast] at hzero
      rw [if_neg (by omega)]
      split
      · rfl
      · rename_i hslot
        rw [if_neg hslot] at hzero
        exact ih hslot hzero

theorem Shape.descend_congr (hs : Shape m N live key) (hm : 0 < m)
    (hsame : ∀ p d, live p → N'.slot p d = N.slot p d) (hp : live p) :
    DigitTree.descend m N' i l h p = DigitTree.descend m N i l h p := by
  induction h generalizing p with
  | zero => rfl
  | succ h ih =>
    rw [DigitTree.descend, DigitTree.descend, hsame p _ hp]
    split
    · rfl
    · split
      · rfl
      · rename_i hslot
        exact ih (hs.child p _ hp (digit_lt hm) hslot).1

/-! ## New nodes -/

def Nodes.alloc (N : Nodes) (c h : Nat) : Nodes :=
  ⟨Function.update N.height c h, Function.update N.slot c fun _ => 0⟩

def Nodes.link (N : Nodes) (p d c : Nat) : Nodes :=
  ⟨N.height, Function.update N.slot p (Function.update (N.slot p) d c)⟩

theorem Nodes.link_slot (N : Nodes) (p d c q e : Nat) :
    (N.link p d c).slot q e = if q = p ∧ e = d then c else N.slot q e := by
  rw [Nodes.link]
  by_cases hq : q = p
  · subst hq
    by_cases he : e = d <;> simp [he]
  · simp [hq]

theorem Shape.alloc (hs : Shape m N live key) (hc : ¬ live c) (hne : c ≠ 0) (h k : Nat) :
    Shape m (N.alloc c h) (fun p => p = c ∨ live p) (Function.update key c k) := by
  refine ⟨fun h0 => ?_, fun p d hp hd hslot => ?_⟩
  · obtain h0 | h0 := h0
    · exact hne h0.symm
    · exact hs.null h0
  · have hpc : p ≠ c := by
      rintro rfl
      simp [Nodes.alloc] at hslot
    have hp := hp.resolve_left hpc
    simp only [Nodes.alloc, Function.update_of_ne hpc] at hslot ⊢
    obtain ⟨hlive, hheight, hkey⟩ := hs.child p d hp hd hslot
    have hcc : N.slot p d ≠ c := by
      intro heq
      exact hc (heq ▸ hlive)
    simp only [Function.update_of_ne hcc]
    exact ⟨.inr hlive, hheight, hkey⟩

theorem Shape.link (hs : Shape m N live key) (hc : live c) (hheight : N.height p = N.height c + 1)
    (hkey : key c = key p * m + d) : Shape m (N.link p d c) live key := by
  refine ⟨hs.null, fun q e hq he hslot => ?_⟩
  rw [Nodes.link_slot] at hslot ⊢
  split
  · rename_i heq
    obtain ⟨rfl, rfl⟩ := heq
    exact ⟨hc, hheight, hkey⟩
  · rename_i hother
    rw [if_neg hother] at hslot
    exact hs.child q e hq he hslot

theorem Shape.congr (hs : Shape m N live key) {live' : Nat → Prop} (h : ∀ p, live' p ↔ live p) :
    Shape m N live' key := by
  obtain rfl : live' = live := funext fun p => propext (h p)
  exact hs

theorem Shape.descend_attach (hs : Shape m N live key) (hm : 0 < m) (hc : ¬ live c) {k : Nat} (hp : live p)
    (hN : N' = (N.alloc c k).link q d c) (hne : DigitTree.descend m N' i 0 h p ≠ 0) :
    DigitTree.descend m N' i 0 h p = DigitTree.descend m N i 0 h p ∨ DigitTree.descend m N' i 0 h p = c := by
  induction h generalizing p with
  | zero => exact .inl rfl
  | succ h ih =>
    have hpc : p ≠ c := fun heq => hc (heq ▸ hp)
    have hempty : q ≠ c → ∀ e, N'.slot c e = 0 := by
      intro hqc e
      rw [hN, Nodes.link_slot, if_neg fun heq => hqc heq.1.symm]
      simp [Nodes.alloc]
    obtain ⟨hslot, hpath⟩ := descend_child (Nat.zero_le h) hne
    rw [hpath] at hne ⊢
    by_cases hqd : p = q ∧ digit m i (h + 1) = d
    · -- the path goes on to the new node, which has no children
      have hchild : N'.slot p (digit m i (h + 1)) = c := by rw [hN, Nodes.link_slot, if_pos hqd]
      rw [hchild] at hne ⊢
      cases h with
      | zero => exact .inr rfl
      | succ h => exact absurd (hempty (hqd.1 ▸ hpc) _) (descend_child (Nat.zero_le h) hne).1
    · have hold : N'.slot p (digit m i (h + 1)) = N.slot p (digit m i (h + 1)) := by
        rw [hN, Nodes.link_slot, if_neg hqd]
        simp only [Nodes.alloc, Function.update_of_ne hpc]
      rw [hold] at hslot hne ⊢
      rw [DigitTree.descend.eq_2, if_neg (Nat.not_succ_le_zero h), if_neg hslot]
      exact ih (hs.child p _ hp (digit_lt hm) hslot).1 hne

end DigitTree
