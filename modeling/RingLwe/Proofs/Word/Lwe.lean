import Mathlib
import RingLwe.Word.Lwe

/-!
# Words as integers modulo the hybrid modulus

Reading a word as a natural number respects the operations up to multiples of
the hybrid modulus, and so does the product of a row with a column
(`dot_modEq`).
-/

set_option autoImplicit false

namespace RingLwe

namespace Width

theorem two_pow_bits (width : Width) : 2 ^ width.bits = width.modulus := by
  rw [modulus_eq, Nat.one_shiftLeft]

theorem modulus_pos (width : Width) : 0 < width.modulus := by
  cases width with
  | bits32 => decide
  | bits64 => decide

theorem modulus_le (width : Width) : width.modulus ≤ 2 ^ 64 := by
  cases width with
  | bits32 => decide
  | bits64 => decide

end Width

namespace LweWord

variable {width : Width}

theorem ofNat_modEq (width : Width) (number : Nat) :
    ((ofNat width number).toNat : Int) ≡ number [ZMOD width.modulus] := by
  rw [toNat_ofNat, Int.natCast_emod]
  exact Int.mod_modEq _ _

theorem ofInt_modEq (width : Width) (number : Int) :
    ((BitVec.ofInt width.bits number).toNat : Int) ≡ number [ZMOD width.modulus] := by
  have positive : (0 : Int) < width.modulus := Int.natCast_pos.mpr width.modulus_pos
  rw [BitVec.toNat_ofInt, width.two_pow_bits,
    Int.toNat_of_nonneg (Int.emod_nonneg _ (Int.ne_of_gt positive))]
  exact Int.mod_modEq _ _

section Operations

variable (left right : LweWord width)

theorem add_modEq :
    ((left + right).toNat : Int) ≡ left.toNat + right.toNat [ZMOD width.modulus] := by
  rw [BitVec.toNat_add, width.two_pow_bits, Int.natCast_emod, Nat.cast_add]
  exact Int.mod_modEq _ _

theorem mul_modEq :
    ((left * right).toNat : Int) ≡ left.toNat * right.toNat [ZMOD width.modulus] := by
  rw [BitVec.toNat_mul, width.two_pow_bits, Int.natCast_emod, Nat.cast_mul]
  exact Int.mod_modEq _ _

theorem sub_modEq :
    ((left - right).toNat : Int) ≡ left.toNat - right.toNat [ZMOD width.modulus] := by
  have small : right.toNat ≤ 2 ^ width.bits := Nat.le_of_lt right.isLt
  rw [BitVec.toNat_sub', Int.natCast_emod, Nat.cast_add, Nat.cast_sub small, width.two_pow_bits]
  refine (Int.mod_modEq _ _).trans (Int.modEq_iff_dvd.mpr ⟨-1, ?_⟩)
  ring

end Operations

/-! ## Products of rows with columns -/

/-- Adding the products of a row with a column to a word. -/
theorem foldl_modEq {row column : List (LweWord width)} (even : row.length = column.length)
    (start : LweWord width) :
    (((row.zip column).foldl (fun sum pair => sum + pair.1 * pair.2) start).toNat : Int) ≡
      start.toNat + ∑ position ∈ Finset.range row.length,
        ((row.getD position 0).toNat : Int) * (column.getD position 0).toNat
      [ZMOD width.modulus] := by
  induction row generalizing column start with
  | nil =>
    rw [List.length_nil, Finset.sum_range_zero, add_zero]
    rfl
  | cons first row ih =>
    cases column with
    | nil => cases even
    | cons second column =>
      rw [List.zip_cons_cons, List.foldl_cons, List.length_cons, Finset.sum_range_succ']
      refine (ih (Nat.succ.inj even) (start + first * second)).trans ?_
      have sum := (add_modEq start (first * second)).trans
        ((mul_modEq first second).add_left start.toNat)
      refine (sum.add_right _).trans ?_
      simp only [List.getD_cons_succ, List.getD_cons_zero]
      rw [add_assoc, add_comm ((first.toNat : Int) * second.toNat)]

theorem dot_modEq {row column : List (LweWord width)} (even : row.length = column.length) :
    ((dot row column).toNat : Int) ≡ ∑ position ∈ Finset.range row.length,
      ((row.getD position 0).toNat : Int) * (column.getD position 0).toNat
      [ZMOD width.modulus] := by
  have sum := foldl_modEq even (0 : LweWord width)
  have zero : ((0 : LweWord width).toNat : Int) = 0 := rfl
  rw [zero, zero_add] at sum
  exact sum

end LweWord

end RingLwe
