import Mathlib.RingTheory.AdjoinRoot
import Mathlib.Algebra.Field.ZMod

/-!
# SphereVFS.Lib.Crc

Cyclic redundancy checks as remainders of polynomials over `GF(2)`, in the reflected bit order: bit `0`
of a register or of an operand is the coefficient of the highest power.

A shift of an `n`-bit register multiplies by `X` modulo the generator, so what a register holds after
any number of shifts is known up to the generator, and a register is determined by its polynomial.
-/

namespace Crc

open Polynomial

variable {n w : Nat}

noncomputable def poly (v : BitVec w) : (ZMod 2)[X] :=
  ∑ i ∈ Finset.range w, if v.getLsbD i then X ^ (w - 1 - i) else 0

/-- The generator whose powers below `n` are those of `g`. -/
noncomputable def generator (g : BitVec n) : (ZMod 2)[X] := X ^ n + poly g

def shift (g c : BitVec n) : BitVec n := (c >>> 1) ^^^ (if c.getLsbD 0 then g else 0#n)

/-! ## Polynomials of bit vectors -/

theorem coeff_poly (v : BitVec w) (k : Nat) :
    (poly v).coeff k = if k < w ∧ v.getLsbD (w - 1 - k) then 1 else 0 := by
  have hcoeff : ∀ i ∈ Finset.range w, (if v.getLsbD i then (X : (ZMod 2)[X]) ^ (w - 1 - i) else 0).coeff k =
      if i = w - 1 - k then (if k < w ∧ v.getLsbD (w - 1 - k) then 1 else 0) else 0 := by
    intro i hi
    have hi := Finset.mem_range.1 hi
    by_cases hik : k = w - 1 - i
    · subst hik
      have hback : w - 1 - (w - 1 - i) = i := by omega
      rw [hback, if_pos rfl]
      cases v.getLsbD i <;> simp; omega
    · have hk : k < w → i ≠ w - 1 - k := by omega
      rw [apply_ite (coeff · k), coeff_X_pow, if_neg hik, coeff_zero, ite_self]
      by_cases hkw : k < w
      · rw [if_neg (hk hkw)]
      · simp [hkw]
  rw [poly, finsetSum_coeff, Finset.sum_congr rfl hcoeff, Finset.sum_ite_eq']
  split
  · rfl
  · rename_i hnot
    simp only [Finset.mem_range] at hnot
    rw [if_neg]
    omega

theorem poly_injective : Function.Injective (poly : BitVec w → (ZMod 2)[X]) := by
  intro u v h
  refine BitVec.eq_of_getLsbD_eq fun i hi => ?_
  have hcoeff := congrArg (coeff · (w - 1 - i)) h
  have hback : w - 1 - (w - 1 - i) = i := by omega
  have hlt : w - 1 - i < w := by omega
  simp only [coeff_poly, hback, hlt, true_and] at hcoeff
  cases hu : u.getLsbD i <;> cases hv : v.getLsbD i <;> simp_all

theorem degree_poly_lt (v : BitVec w) : (poly v).degree < w := by
  rw [degree_lt_iff_coeff_zero]
  intro k hk
  rw [coeff_poly, if_neg]
  omega

theorem poly_xor (u v : BitVec w) : poly (u ^^^ v) = poly u + poly v := by
  ext k
  rw [coeff_add, coeff_poly, coeff_poly, coeff_poly, BitVec.getLsbD_xor]
  by_cases hk : k < w
  · cases u.getLsbD (w - 1 - k) <;> cases v.getLsbD (w - 1 - k) <;> simp [hk]
    decide
  · simp [hk]

@[simp] theorem poly_zero : poly (0#w) = 0 := by simp [poly]

theorem poly_append (u : BitVec n) (v : BitVec w) : poly (u ++ v) = poly v * X ^ n + poly u := by
  have hrange : Finset.range (n + w) = Finset.range (w + n) := congrArg _ (Nat.add_comm n w)
  rw [poly, hrange, Finset.sum_range_add, poly, poly, Finset.sum_mul]
  congr 1
  · refine Finset.sum_congr rfl fun i hi => ?_
    have hi := Finset.mem_range.1 hi
    rw [BitVec.getLsbD_append, if_pos hi, ite_mul, zero_mul, ← pow_add]
    congr 2
    omega
  · refine Finset.sum_congr rfl fun i hi => ?_
    rw [BitVec.getLsbD_append, if_neg (Nat.not_lt.2 (Nat.le_add_right w i)), Nat.add_sub_cancel_left]
    congr 2
    omega

theorem poly_setWidth (v : BitVec w) (h : w ≤ n) : poly (v.setWidth n) * X ^ w = poly v * X ^ n := by
  obtain ⟨k, rfl⟩ := Nat.exists_eq_add_of_le' h
  have happend : v.setWidth (k + w) = 0#k ++ v := by
    refine BitVec.eq_of_getLsbD_eq fun i hi => ?_
    simp only [BitVec.getLsbD_setWidth, hi, decide_true, Bool.true_and, BitVec.getLsbD_append,
      BitVec.getLsbD_zero]
    split
    · rfl
    · exact BitVec.getLsbD_of_ge _ _ (by omega)
  rw [happend, poly_append, poly_zero, add_zero, mul_assoc, ← pow_add]

/-! ## Shifts -/

variable (g : BitVec n)

theorem generator_monic : (generator g).Monic := by
  rw [generator, add_comm]
  exact (monic_X_pow n).add_of_right (by rw [degree_X_pow]; exact degree_poly_lt g)

theorem degree_generator : (generator g).degree = n := by
  rw [generator, degree_add_eq_left_of_degree_lt, degree_X_pow]
  rw [degree_X_pow]
  exact degree_poly_lt g

theorem poly_ushiftRight_one (c : BitVec n) :
    poly (c >>> 1) = X * poly c + if c.getLsbD 0 then X ^ n else 0 := by
  ext k
  have hcoeff : (if c.getLsbD 0 then (X : (ZMod 2)[X]) ^ n else 0).coeff k =
      if c.getLsbD 0 ∧ k = n then 1 else 0 := by
    cases c.getLsbD 0 <;> simp [coeff_X_pow]
  rw [coeff_add, hcoeff, coeff_poly, BitVec.getLsbD_ushiftRight]
  cases k with
  | zero =>
    rw [coeff_X_mul_zero, zero_add, BitVec.getLsbD_of_ge c _ (by omega)]
    cases n with
    | zero => simp
    | succ n => simp
  | succ k =>
    rw [coeff_X_mul, coeff_poly]
    obtain hlt | rfl | hgt := Nat.lt_trichotomy (k + 1) n
    · have hidx : 1 + (n - 1 - (k + 1)) = n - 1 - k := by omega
      simp [hidx, hlt, Nat.ne_of_lt hlt, Nat.lt_of_succ_lt hlt]
    · simp only [Nat.lt_irrefl, false_and, if_false, Nat.lt_succ_self, true_and, and_true,
        Nat.add_sub_cancel, Nat.sub_self]
      cases c.getLsbD 0 <;> simp
      decide
    · have h1 : ¬ k + 1 < n := by omega
      have h2 : ¬ k < n := by omega
      have h3 : k + 1 ≠ n := by omega
      simp [h1, h2, h3]

noncomputable def residue (c : BitVec n) : AdjoinRoot (generator g) := AdjoinRoot.mk _ (poly c)

theorem residue_shift (c : BitVec n) : residue g (shift g c) = AdjoinRoot.root _ * residue g c := by
  have hzero : AdjoinRoot.mk (generator g) (X ^ n) + AdjoinRoot.mk _ (poly g) = 0 := by
    rw [← map_add]
    exact AdjoinRoot.mk_self
  rw [residue, shift, poly_xor, poly_ushiftRight_one, map_add, map_add, map_mul, AdjoinRoot.mk_X, add_assoc]
  cases c.getLsbD 0 with
  | false => simp [residue]
  | true => simp only [if_true]; rw [hzero, add_zero, residue]

theorem residue_shifts (c : BitVec n) (k : Nat) :
    residue g ((shift g)^[k] c) = AdjoinRoot.root _ ^ k * residue g c := by
  induction k with
  | zero => rw [Function.iterate_zero_apply, pow_zero, one_mul]
  | succ k ih => rw [Function.iterate_succ_apply', residue_shift, ih, pow_succ', mul_assoc]

theorem poly_eq_mod_iff (c : BitVec n) (p : (ZMod 2)[X]) :
    poly c = p %ₘ generator g ↔ residue g c = AdjoinRoot.mk _ p := by
  have hself : poly c %ₘ generator g = poly c := by
    rw [modByMonic_eq_self_iff (generator_monic g), degree_generator]
    exact degree_poly_lt c
  rw [residue, AdjoinRoot.mk_eq_mk]
  constructor
  · intro h
    refine (modByMonic_eq_zero_iff_dvd (generator_monic g)).1 ?_
    rw [sub_modByMonic, hself, h, sub_self]
  · intro h
    rw [← hself]
    exact modByMonic_eq_of_dvd_sub (generator_monic g) h

/-! ## Operands -/

def feed (c : BitVec n) (v : BitVec w) : BitVec n := (shift g)^[w] (c ^^^ v.setWidth n)

theorem residue_feed (hw : w ≤ n) (c : BitVec n) (v : BitVec w) :
    residue g (feed g c v) = AdjoinRoot.mk _ (poly v * X ^ n + poly c * X ^ w) := by
  rw [feed, residue_shifts, residue, poly_xor, ← poly_setWidth v hw]
  simp only [map_add, map_mul, map_pow, AdjoinRoot.mk_X]
  ring

/-- The first `k` bytes of the data, the first one lowest. -/
def load : (k : Nat) → List (BitVec 8) → BitVec (8 * k)
  | 0, _ => 0#0
  | k + 1, data => load k data.tail ++ data.headD 0

theorem residue_load (hn : 8 ≤ n) (k : Nat) (c : BitVec n) {data : List (BitVec 8)} (h : k ≤ data.length) :
    residue g ((data.take k).foldl (feed g) c) =
      AdjoinRoot.mk _ (poly (load k data) * X ^ n + poly c * X ^ (8 * k)) := by
  induction k generalizing c data with
  | zero => simp [load, residue]
  | succ k ih =>
    cases data with
    | nil => cases h
    | cons b data =>
      have hbyte : AdjoinRoot.mk (generator g) (poly (feed g c b)) = _ := residue_feed g hn c b
      rw [List.take_succ_cons, List.foldl_cons, ih _ (Nat.le_of_succ_le_succ h), load, List.tail_cons,
        List.headD_cons, poly_append, map_add, map_mul, map_mul, hbyte]
      simp only [map_add, map_mul, map_pow, AdjoinRoot.mk_X, Nat.mul_succ]
      ring

/-! ## Tables -/

theorem residue_xor (c d : BitVec n) : residue g (c ^^^ d) = residue g c + residue g d := by
  rw [residue, poly_xor, map_add, residue, residue]

theorem residue_injective : Function.Injective (residue g) := by
  intro c d h
  refine poly_injective (((poly_eq_mod_iff g c (poly d)).2 h).trans ?_)
  exact ((poly_eq_mod_iff g d (poly d)).2 rfl).symm

theorem poly_ushiftRight {c : BitVec n} {k : Nat} (h : ∀ i < k, c.getLsbD i = false) :
    poly (c >>> k) = X ^ k * poly c := by
  induction k with
  | zero => simp
  | succ k ih =>
    have hlow : (c >>> k).getLsbD 0 = false := by
      rw [BitVec.getLsbD_ushiftRight]
      exact h k (Nat.lt_succ_self k)
    rw [BitVec.shiftRight_add, poly_ushiftRight_one, hlow, ih fun i hi => h i (Nat.lt_succ_of_lt hi)]
    simp only [Bool.false_eq_true, if_false]
    ring

theorem shifts_eight (c : BitVec n) :
    (shift g)^[8] c = (c >>> 8) ^^^ (shift g)^[8] (c &&& 255#n) := by
  have hlow (i : Nat) : (255#n).getLsbD i = (decide (i < n) && decide (i < 8)) := by
    rw [BitVec.getLsbD_ofNat, show 255 = 2 ^ 8 - 1 from rfl, Nat.testBit_two_pow_sub_one]
  have hsplit : (c &&& ~~~255#n) ^^^ (c &&& 255#n) = c := by
    refine BitVec.eq_of_getLsbD_eq fun i hi => ?_
    simp only [BitVec.getLsbD_xor, BitVec.getLsbD_and, BitVec.getLsbD_not, hi, decide_true, Bool.true_and]
    cases c.getLsbD i <;> cases (255#n).getLsbD i <;> rfl
  have hhigh : c >>> 8 = (c &&& ~~~255#n) >>> 8 := by
    refine BitVec.eq_of_getLsbD_eq fun i _ => ?_
    have hbit : (255#n).getLsbD (8 + i) = false := by simp [hlow]
    simp only [BitVec.getLsbD_ushiftRight, BitVec.getLsbD_and, BitVec.getLsbD_not, hbit]
    by_cases hin : 8 + i < n
    · simp [hin]
    · simp [BitVec.getLsbD_of_ge c (8 + i) (Nat.le_of_not_lt hin)]
  have hmoved : residue g (c >>> 8) = AdjoinRoot.root _ ^ 8 * residue g (c &&& ~~~255#n) := by
    rw [hhigh, residue, poly_ushiftRight, map_mul, map_pow, AdjoinRoot.mk_X, residue]
    intro i hi
    simp [hlow, hi]
  refine residue_injective g ?_
  rw [residue_shifts, residue_xor, residue_shifts, hmoved, ← mul_add, ← residue_xor, hsplit]

theorem feed_eq_table (c : BitVec n) (b : BitVec 8) :
    feed g c b = (c >>> 8) ^^^ (shift g)^[8] ((c ^^^ b.setWidth n) &&& 255#n) := by
  have hhigh : (c ^^^ b.setWidth n) >>> 8 = c >>> 8 := by
    refine BitVec.eq_of_getLsbD_eq fun i _ => ?_
    simp
  rw [feed, shifts_eight, hhigh]

/-! ## Bursts -/

def bits (data : List (BitVec 8)) : List Bool := data.flatMap fun b => (List.range 8).map b.getLsbD

def feedBit (c : BitVec n) (b : Bool) : BitVec n := feed g c (BitVec.ofBool b)

theorem feed_congr {w' : Nat} {u : BitVec w} {v : BitVec w'} (hw : w = w')
    (h : ∀ i, u.getLsbD i = v.getLsbD i) (c : BitVec n) : feed g c u = feed g c v := by
  subst hw
  rw [BitVec.eq_of_getLsbD_eq fun i _ => h i]

theorem foldl_feedBit (hn : 0 < n) (l : List Bool) (h : l.length ≤ n) (c : BitVec n) :
    l.foldl (feedBit g) c = feed g c (BitVec.ofBoolListLE l) := by
  induction l generalizing c with
  | nil => simp [feed, BitVec.ofBoolListLE]
  | cons b l ih =>
    have hbit := residue_feed g (w := 1) hn c (BitVec.ofBool b)
    rw [List.foldl_cons, ih (Nat.le_of_succ_le h)]
    refine residue_injective g ?_
    have hcons : feed g c (BitVec.ofBoolListLE (b :: l)) =
        feed g c (BitVec.ofBoolListLE l ++ BitVec.ofBool b) := rfl
    rw [hcons, residue_feed g (Nat.le_of_succ_le h), residue_feed g h, poly_append, map_add, map_mul,
      map_mul, feedBit, show AdjoinRoot.mk _ (poly (feed g c _)) = _ from hbit]
    simp only [map_add, map_mul, map_pow, AdjoinRoot.mk_X, List.length_cons]
    ring

theorem foldl_feed (hn : 8 ≤ n) (data : List (BitVec 8)) (c : BitVec n) :
    data.foldl (feed g) c = (bits data).foldl (feedBit g) c := by
  have hbyte : (feed g : BitVec n → BitVec 8 → BitVec n) =
      fun c b => ((List.range 8).map b.getLsbD).foldl (feedBit g) c := by
    funext c b
    rw [foldl_feedBit g (by omega) _ (by simpa using hn)]
    refine feed_congr g (by simp) (fun i => ?_) c
    rw [BitVec.getLsbD_ofBoolListLE, List.getD_eq_getElem?_getD, List.getElem?_map]
    by_cases hi : i < 8
    · simp [List.getElem?_range hi]
    · simp [Nat.le_of_not_lt hi]
  rw [hbyte, bits, List.foldl_flatMap]

section Injective

variable (hg : g.getLsbD (n - 1) = true)
include hg

theorem shift_injective : Function.Injective (shift g) := by
  have hn : 0 < n := by
    cases n with
    | zero => simp at hg
    | succ n => omega
  intro c d h
  have hbit (i : Nat) := congrArg (BitVec.getLsbD · i) h
  simp only [shift, BitVec.getLsbD_xor, BitVec.getLsbD_ushiftRight] at hbit
  -- the highest bit of the shifted register is the lowest of the old one
  have hlow : c.getLsbD 0 = d.getLsbD 0 := by
    have htop := hbit (n - 1)
    rw [BitVec.getLsbD_of_ge c (1 + (n - 1)) (by omega), BitVec.getLsbD_of_ge d (1 + (n - 1)) (by omega)] at htop
    cases hc : c.getLsbD 0 <;> cases hd : d.getLsbD 0 <;> simp_all
  refine BitVec.eq_of_getLsbD_eq fun i hi => ?_
  cases i with
  | zero => exact hlow
  | succ i =>
    have hi := hbit i
    rw [hlow, Bool.xor_left_inj, Nat.add_comm] at hi
    exact hi

theorem feed_injective_left (v : BitVec w) : Function.Injective fun c => feed g c v := by
  intro c d h
  exact (BitVec.xor_left_inj _).1 (((shift_injective g hg).iterate w) h)

theorem feed_injective_right (hw : w ≤ n) (c : BitVec n) : Function.Injective fun v : BitVec w => feed g c v := by
  intro u v h
  have hset : u.setWidth n = v.setWidth n := (BitVec.xor_right_inj _).1 (((shift_injective g hg).iterate w) h)
  refine BitVec.eq_of_getLsbD_eq fun i hi => ?_
  have hbit := congrArg (BitVec.getLsbD · i) hset
  simpa [Nat.lt_of_lt_of_le hi hw] using hbit

theorem foldl_injective (l : List Bool) : Function.Injective fun c => l.foldl (feedBit g) c := by
  induction l with
  | nil => exact fun _ _ h => h
  | cons b l ih => exact ih.comp (feed_injective_left g hg _)

theorem burst_ne (hn : 8 ≤ n) {data data' : List (BitVec 8)} {pre burst burst' post : List Bool}
    (hdata : bits data = pre ++ burst ++ post) (hdata' : bits data' = pre ++ burst' ++ post)
    (hlen : burst.length = burst'.length) (hle : burst.length ≤ n) (hne : burst ≠ burst') (c : BitVec n) :
    data.foldl (feed g) c ≠ data'.foldl (feed g) c := by
  intro h
  rw [foldl_feed g hn, foldl_feed g hn, hdata, hdata'] at h
  simp only [List.foldl_append] at h
  have h := foldl_injective g hg post h
  generalize pre.foldl (feedBit g) c = d at h
  rw [foldl_feedBit g (by omega) _ hle, foldl_feedBit g (by omega) _ (hlen ▸ hle),
    feed_congr g hlen (v := (BitVec.ofBoolListLE burst).cast hlen) (fun i => by simp)] at h
  have hvec := feed_injective_right g hg (hlen ▸ hle) d h
  refine hne (List.ext_getElem hlen fun i hi hi' => ?_)
  have hbit := congrArg (BitVec.getLsbD · i) hvec
  simp only [BitVec.getLsbD_cast, BitVec.getLsbD_ofBoolListLE] at hbit
  simpa [List.getD_eq_getElem?_getD, hi, hi'] using hbit

end Injective

end Crc
