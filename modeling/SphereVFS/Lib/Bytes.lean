import Mathlib.Logic.Function.Basic
import Mathlib.Algebra.Order.Ring.Int
import Mathlib.Tactic.Common

/-!
# Bytes

Little-endian numbers in a byte buffer: reading `n` bytes at an offset, and writing them. A write is
read back modulo the width, and is not seen outside its own bytes.
-/

namespace Bytes

abbrev Buffer := Nat → UInt8

/-- The number in the `n` bytes from `off` on. -/
def get (buf : Buffer) : Nat → Nat → Nat
  | _, 0 => 0
  | off, n + 1 => (buf off).toNat + 256 * get buf (off + 1) n

/-- Write the low `n` bytes of `v` from `off` on. -/
def put (buf : Buffer) : Nat → Nat → Nat → Buffer
  | _, 0, _ => buf
  | off, n + 1, v => put (Function.update buf off (UInt8.ofNat v)) (off + 1) n (v / 256)

variable {buf buf' : Buffer} {off off' n m v : Nat}

theorem put_apply (h : off' < off ∨ off + n ≤ off') : put buf off n v off' = buf off' := by
  induction n generalizing buf off v with
  | zero => rfl
  | succ n ih =>
    rw [put, ih (by omega), Function.update_of_ne (by omega)]

theorem get_congr (h : ∀ i < n, buf' (off + i) = buf (off + i)) : get buf' off n = get buf off n := by
  induction n generalizing off with
  | zero => rfl
  | succ n ih =>
    have hrest : get buf' (off + 1) n = get buf (off + 1) n := by
      refine ih fun i hi => ?_
      have := h (i + 1) (by omega)
      rwa [show off + (i + 1) = off + 1 + i by omega] at this
    have hfirst : buf' off = buf off := h 0 (by omega)
    rw [get, get, hfirst, hrest]

theorem get_lt : get buf off n < 256 ^ n := by
  induction n generalizing off with
  | zero => simp [get]
  | succ n ih =>
    have hbyte := (buf off).toNat_lt
    have hrest : get buf (off + 1) n < 256 ^ n := ih
    have hpow : 256 ^ (n + 1) = 256 * 256 ^ n := by rw [Nat.pow_succ, Nat.mul_comm]
    rw [get, hpow]
    omega

theorem get_put_ne (h : off' + m ≤ off ∨ off + n ≤ off') : get (put buf off n v) off' m = get buf off' m :=
  get_congr fun i hi => put_apply (by omega)

theorem get_put_mod : get (put buf off n v) off n = v % 256 ^ n := by
  induction n generalizing buf off v with
  | zero => simp [get, Nat.mod_one]
  | succ n ih =>
    have hbyte : put (Function.update buf off (UInt8.ofNat v)) (off + 1) n (v / 256) off =
        UInt8.ofNat v := by
      rw [put_apply (by omega), Function.update_self]
    have hpow : 256 ^ (n + 1) = 256 * 256 ^ n := by rw [Nat.pow_succ, Nat.mul_comm]
    rw [get, put, ih, hbyte, UInt8.toNat_ofNat', hpow, Nat.mod_mul]

theorem get_put (h : v < 256 ^ n) : get (put buf off n v) off n = v := by
  rw [get_put_mod, Nat.mod_eq_of_lt h]

theorem put_get (buf : Buffer) (off n : Nat) : put buf off n (get buf off n) = buf := by
  induction n generalizing off with
  | zero => rfl
  | succ n ih =>
    have hbyte := (buf off).toNat_lt
    have hfirst : UInt8.ofNat (get buf off (n + 1)) = buf off := by
      refine UInt8.toNat_inj.1 ?_
      rw [get, UInt8.toNat_ofNat']
      omega
    have hrest : get buf off (n + 1) / 256 = get buf (off + 1) n := by
      rw [get]
      omega
    rw [put, hfirst, Function.update_eq_self, hrest, ih]

theorem get_eq_zero (h : ∀ i < n, buf (off + i) = 0) : get buf off n = 0 := by
  induction n generalizing off with
  | zero => rfl
  | succ n ih =>
    have hrest : get buf (off + 1) n = 0 := by
      refine ih fun i hi => ?_
      have := h (i + 1) (by omega)
      rwa [show off + (i + 1) = off + 1 + i by omega] at this
    have hfirst : buf off = 0 := h 0 (by omega)
    rw [get, hrest, hfirst]
    rfl

theorem get_ne_zero (h : buf off ≠ 0) : get buf off (n + 1) ≠ 0 := by
  intro hzero
  rw [get] at hzero
  exact h (UInt8.toNat_inj.1 (Nat.eq_zero_of_add_eq_zero_right hzero))

theorem pow_le_get (h : buf (off + n) ≠ 0) : 256 ^ n ≤ get buf off (n + 1) := by
  induction n generalizing off with
  | zero =>
    exact Nat.pos_of_ne_zero (get_ne_zero h)
  | succ n ih =>
    have hrest : 256 ^ n ≤ get buf (off + 1) (n + 1) := by
      refine ih ?_
      rwa [show off + 1 + n = off + (n + 1) by omega]
    have hpow : 256 ^ (n + 1) = 256 * 256 ^ n := by rw [Nat.pow_succ, Nat.mul_comm]
    rw [get, hpow]
    omega

end Bytes
