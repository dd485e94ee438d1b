import Mathlib
import RingLwe.Word.Bytes

/-!
# What little-endian bytes denote

A list of bytes is read as a number below the power of 256 given by its length
(`value_lt`), and a written number is read back modulo that power
(`value_ofNat`).
-/

set_option autoImplicit false

namespace RingLwe.Bytes

theorem value_lt (bytes : List UInt8) : value bytes < 256 ^ bytes.length := by
  induction bytes with
  | nil => exact Nat.one_pos
  | cons byte bytes ih =>
    have bound := byte.toNat_lt
    rw [List.length_cons, Nat.pow_succ]
    change byte.toNat + 256 * value bytes < _
    omega

/-- A written number is read back modulo the power of 256 that fits. -/
theorem value_ofNat (count number : Nat) : value (ofNat count number) = number % 256 ^ count := by
  induction count generalizing number with
  | zero => rw [Nat.pow_zero, Nat.mod_one]; rfl
  | succ count ih =>
    have low : (number % 256).toUInt8.toNat = number % 256 := by
      rw [Nat.toUInt8_eq, UInt8.toNat_ofNat']
      exact Nat.mod_eq_of_lt (Nat.mod_lt _ (by decide))
    change (number % 256).toUInt8.toNat + 256 * value (ofNat count (number / 256)) = _
    rw [low, ih, Nat.pow_succ, Nat.mul_comm (256 ^ count) 256, Nat.mod_mul]

end RingLwe.Bytes
