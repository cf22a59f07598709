import Mathlib.Algebra.Order.Ring.Int
import Mathlib.Data.List.GetD
import Mathlib.Tactic.Common

/-!
# Splice

A list as the contents of a file: writing a block at a position and setting the length. Positions
behind the end hold a filler, so that both are pointwise what one expects of `getD`.
-/

namespace Splice

variable {α : Type} (zero : α)

/-- `data` is put at `off`; a gap behind the end is filled. -/
def write (s : List α) (off : Nat) (data : List α) : List α :=
  (s ++ List.replicate (off - s.length) zero).take off ++ data ++ s.drop (off + data.length)

/-- The list is cut, or filled, to length `n`. -/
def resize (s : List α) (n : Nat) : List α :=
  s.take n ++ List.replicate (n - s.length) zero

variable {zero}

theorem ext_getD (zero : α) {s t : List α} (hlen : s.length = t.length)
    (h : ∀ x < s.length, s.getD x zero = t.getD x zero) : s = t := by
  apply List.ext_getElem hlen
  intro x hx hx'
  simpa [List.getD_eq_getElem, hx, hx'] using h x hx

@[simp] theorem length_write (s : List α) (off : Nat) (data : List α) :
    (write zero s off data).length = max s.length (off + data.length) := by
  simp only [write, List.length_append, List.length_take, List.length_replicate, List.length_drop]
  omega

@[simp] theorem length_resize (s : List α) (n : Nat) : (resize zero s n).length = n := by
  simp only [resize, List.length_append, List.length_take, List.length_replicate]
  omega

theorem getD_padded (s : List α) (k x : Nat) :
    (s ++ List.replicate k zero).getD x zero = s.getD x zero := by
  by_cases hx : x < s.length
  · rw [List.getD_append _ _ _ _ hx]
  · rw [List.getD_append_right _ _ _ _ (by omega), List.getD_eq_default s zero (by omega)]
    by_cases hk : x - s.length < k
    · rw [List.getD_replicate _ hk]
    · rw [List.getD_eq_default _ _ (by simpa using hk)]

theorem getD_take {s : List α} {n x : Nat} (h : x < n) : (s.take n).getD x zero = s.getD x zero := by
  rw [List.getD_eq_getElem?_getD, List.getD_eq_getElem?_getD, List.getElem?_take_of_lt h]

theorem getD_write (s : List α) (off : Nat) (data : List α) (x : Nat) :
    (write zero s off data).getD x zero =
      if off ≤ x ∧ x < off + data.length then data.getD (x - off) zero else s.getD x zero := by
  have hlen : ((s ++ List.replicate (off - s.length) zero).take off).length = off := by
    simp only [List.length_take, List.length_append, List.length_replicate]
    omega
  rw [write, List.append_assoc]
  by_cases hoff : x < off
  · rw [List.getD_append _ _ _ _ (by omega), getD_take hoff, getD_padded, if_neg (by omega)]
  · rw [List.getD_append_right _ _ _ _ (by omega), hlen]
    by_cases hx : x - off < data.length
    · rw [List.getD_append _ _ _ _ hx, if_pos (by omega)]
    · rw [List.getD_append_right _ _ _ _ (by omega), if_neg (by omega), List.getD_eq_getElem?_getD,
        List.getElem?_drop, List.getD_eq_getElem?_getD]
      congr 2
      omega

theorem getD_resize (s : List α) (n x : Nat) :
    (resize zero s n).getD x zero = if x < n then s.getD x zero else zero := by
  by_cases hx : x < n
  · rw [if_pos hx, resize]
    by_cases hs : n ≤ s.length
    · rw [List.getD_append _ _ _ _ (by simp; omega), getD_take hx]
    · rw [List.take_of_length_le (by omega), getD_padded]
  · rw [if_neg hx, List.getD_eq_default _ _ (by simpa using hx)]

theorem write_end (s : List α) (k : Nat) :
    write zero s s.length (List.replicate k zero) = resize zero s (s.length + k) := by
  refine ext_getD zero (by simp) fun x hx => ?_
  rw [getD_write, getD_resize, List.length_replicate]
  simp only [length_write, List.length_replicate] at hx
  rw [if_pos (by omega : x < s.length + k)]
  split
  · rw [List.getD_replicate _ (by omega), List.getD_eq_default _ _ (by omega)]
  · rfl

theorem resize_resize {s : List α} {a : Nat} (ha : s.length ≤ a) (b : Nat) :
    resize zero (resize zero s a) b = resize zero s b := by
  refine ext_getD zero (by simp) fun x hx => ?_
  rw [getD_resize, getD_resize, getD_resize]
  split
  · split
    · rfl
    · rw [List.getD_eq_default _ _ (by omega)]
  · rfl

theorem resize_self (s : List α) : resize zero s s.length = s := by
  simp [resize]

end Splice
