import Mathlib
import RingLwe.Modular.Residue

/-!
# Inverses of residues

The states of the extended division algorithm for a word and a modulus keep
the relation of their remainders to the word, their greatest common divisor,
and an exact balance between remainders and coefficients (`Bezout`).  The
balance bounds the coefficients by the modulus, so that one correction brings
the last of them into range.

A word has an inverse exactly when it is coprime to the modulus
(`inverse?_eq_none_iff`), and what is found is the inverse (`inverse?_sound`).
-/

set_option autoImplicit false

namespace RingLwe.Residue

/-- What holds of every state of the extended division algorithm for a word and a modulus. -/
structure Euclid.Bezout (word q : Nat) (state : Euclid) : Prop where
  remainder : state.coefficient * word ≡ state.remainder [ZMOD q]
  next : state.nextCoefficient * word ≡ state.next [ZMOD q]
  gcd : Nat.gcd state.remainder state.next = Nat.gcd q word
  /-- The coefficients alternate in sign. -/
  alternate : state.coefficient * state.nextCoefficient ≤ 0
  balance : state.remainder * state.nextCoefficient.natAbs +
    state.next * state.coefficient.natAbs = q
  descending : state.next < state.remainder
  growing : state.coefficient.natAbs ≤ state.nextCoefficient.natAbs

namespace Euclid

variable {word q : UInt64}

/-- The absolute values of integers of opposite sign add up in a difference. -/
theorem natAbs_sub_mul_of_opposite {left right : Int} (opposite : left * right ≤ 0)
    (factor : Nat) :
    (left - (factor : Int) * right).natAbs = left.natAbs + factor * right.natAbs := by
  have scaled : ((factor : Int) * right).natAbs = factor * right.natAbs := by
    rw [Int.natAbs_mul, Int.natAbs_natCast]
  rcases mul_nonpos_iff.mp opposite with ⟨above, below⟩ | ⟨below, above⟩
  · have product : (factor : Int) * right ≤ 0 :=
      mul_nonpos_of_nonneg_of_nonpos (Int.natCast_nonneg factor) below
    omega
  · have product : 0 ≤ (factor : Int) * right := mul_nonneg (Int.natCast_nonneg factor) above
    omega

theorem bezout_start (positive : 0 < q.toNat) : Bezout word.toNat q.toNat (start word q) where
  remainder := by
    simp only [start, zero_mul]
    exact (Int.modEq_zero_iff_dvd.mpr (dvd_refl _)).symm
  next := by
    simp only [start, one_mul, Int.natCast_emod]
    exact (Int.mod_modEq _ _).symm
  gcd := by
    simp only [start]
    rw [Nat.gcd_comm, Nat.gcd_comm q.toNat, ← Nat.gcd_rec, Nat.gcd_comm]
  alternate := by simp [start]
  balance := by simp [start]
  descending := Nat.mod_lt _ positive
  growing := by simp [start]

/-- One division keeps the relations. -/
theorem Bezout.step {a modulus : Nat} {state : Euclid} (holds : Bezout a modulus state)
    (more : state.next ≠ 0) : Bezout a modulus state.step where
  remainder := holds.next
  next := by
    have divided : ((state.remainder % state.next : Nat) : Int) =
        state.remainder - ((state.remainder / state.next : Nat) : Int) * state.next := by
      rw [Int.natCast_emod, Int.emod_def, Int.natCast_ediv, mul_comm]
    simp only [Euclid.step]
    rw [divided, sub_mul, mul_assoc]
    exact holds.remainder.sub (holds.next.mul_left _)
  gcd := by
    simp only [Euclid.step]
    rw [← holds.gcd, Nat.gcd_comm, ← Nat.gcd_rec, Nat.gcd_comm]
  alternate := by
    have product := holds.alternate
    have square := mul_nonneg (Int.natCast_nonneg (state.remainder / state.next))
      (mul_self_nonneg state.nextCoefficient)
    simp only [Euclid.step]
    linarith
  balance := by
    have divided := Nat.div_add_mod' state.remainder state.next
    have balanced := holds.balance
    simp only [Euclid.step]
    rw [natAbs_sub_mul_of_opposite holds.alternate]
    rw [← balanced]
    nth_rewrite 3 [← divided]
    ring
  descending := Nat.mod_lt _ (Nat.pos_of_ne_zero more)
  growing := by
    have whole : 1 ≤ state.remainder / state.next :=
      (Nat.one_le_div_iff (Nat.pos_of_ne_zero more)).mpr (Nat.le_of_lt holds.descending)
    have grown := Nat.le_mul_of_pos_left state.nextCoefficient.natAbs whole
    simp only [Euclid.step]
    rw [natAbs_sub_mul_of_opposite holds.alternate]
    omega

theorem Bezout.natAbs_le {a modulus : Nat} {state : Euclid} (holds : Bezout a modulus state) :
    state.coefficient.natAbs ≤ modulus ∧ state.nextCoefficient.natAbs ≤ modulus := by
  have grown := Nat.le_mul_of_pos_left state.nextCoefficient.natAbs
    (Nat.zero_lt_of_lt holds.descending)
  have balanced := holds.balance
  have order := holds.growing
  omega

/-- The remainders are at most the modulus. -/
theorem Bezout.remainder_le {a modulus : Nat} {state : Euclid} (holds : Bezout a modulus state)
    (positive : 0 < modulus) : state.remainder ≤ modulus := by
  have balanced := holds.balance
  have order := holds.growing
  rcases Nat.eq_zero_or_pos state.nextCoefficient.natAbs with zero | nonzero
  · have older : state.coefficient.natAbs = 0 := Nat.le_zero.mp (order.trans_eq zero)
    rw [zero, older] at balanced
    omega
  · have grown := Nat.le_mul_of_pos_right state.remainder nonzero
    omega

theorem Bezout.run {a modulus : Nat} {state : Euclid} (holds : Bezout a modulus state) :
    Bezout a modulus state.run := by
  fun_induction Euclid.run state with
  | case1 state done => exact holds
  | case2 state more ih => exact ih (holds.step more)

theorem next_run (state : Euclid) : state.run.next = 0 := by
  fun_induction Euclid.run state with
  | case1 state done => exact done
  | case2 state more ih => exact ih

theorem remainder_run_start (positive : 0 < q.toNat) :
    (start word q).run.remainder = Nat.gcd q.toNat word.toNat := by
  have last := (@bezout_start word q positive).run.gcd
  rwa [next_run, Nat.gcd_zero_right] at last

/-- The last coefficient of a word that is coprime to the modulus is its inverse up to a multiple
of the modulus, and within the modulus on either side. -/
theorem coefficient_run_start (positive : 0 < q.toNat) (coprime : (start word q).run.remainder = 1) :
    (start word q).run.coefficient * word.toNat ≡ 1 [ZMOD q.toNat] ∧
      (start word q).run.coefficient.natAbs < q.toNat := by
  have last := (@bezout_start word q positive).run
  have inverse := last.remainder
  rw [coprime, Nat.cast_one] at inverse
  refine ⟨inverse, ?_⟩
  by_cases one : q.toNat = 1
  · -- modulo one the algorithm stops where it starts, with the coefficient zero
    have stopped : (start word q).run = start word q := by
      rw [Euclid.run, if_pos]
      simp [start, one, Nat.mod_one]
    rw [stopped]
    exact positive
  · have balanced := last.balance
    rw [next_run, coprime, one_mul, zero_mul, add_zero] at balanced
    refine Nat.lt_of_le_of_ne (balanced ▸ last.growing) fun whole => one ?_
    have multiple : (q.toNat : Int) ∣ (start word q).run.coefficient :=
      Int.natCast_dvd.mpr (Dvd.intro 1 (by rw [whole, mul_one]))
    have vanishes := (Int.modEq_zero_iff_dvd.mpr (multiple.mul_right word.toNat)).symm.trans inverse
    exact Nat.dvd_one.mp (Int.natCast_dvd_natCast.mp (by
      simpa using (Int.modEq_zero_iff_dvd.mp vanishes.symm)))

end Euclid

open Euclid

variable {word q : UInt64} (positive : 0 < q.toNat)
include positive

/-- A word has no inverse exactly when it is not coprime to the modulus. -/
theorem inverse?_eq_none_iff : inverse? word q = none ↔ Nat.gcd word.toNat q.toNat ≠ 1 := by
  unfold inverse?
  simp only [remainder_run_start positive, Nat.gcd_comm q.toNat]
  split
  next one => simp [one]
  next other => simp [other]

/-- What is found is the inverse: a reduced word whose product with the word is one. -/
theorem inverse?_sound {found : UInt64} (inverse : inverse? word q = some found) :
    found < q ∧ word.toNat * found.toNat ≡ 1 [MOD q.toNat] := by
  simp only [inverse?] at inverse
  split at inverse
  next coprime =>
    obtain ⟨relation, bound⟩ := coefficient_run_start positive coprime
    generalize (start word q).run.coefficient = coefficient at *
    obtain ⟨corrected, value, lower, upper, congruent⟩ : ∃ corrected : Int,
        found = corrected.toNat.toUInt64 ∧ 0 ≤ corrected ∧ corrected < q.toNat ∧
          corrected ≡ coefficient [ZMOD q.toNat] := by
      refine ⟨_, (Option.some.inj inverse).symm, ?_⟩
      split
      next negative => exact ⟨by omega, by omega, Int.add_modEq_right⟩
      next nonnegative => exact ⟨by omega, by omega, Int.ModEq.refl _⟩
    have integer : (found.toNat : Int) = corrected := by
      rw [value, toNat_toUInt64_of_lt (q := q) (by omega), Int.toNat_of_nonneg lower]
    refine ⟨UInt64.lt_iff_toNat_lt.mpr (by omega), ?_⟩
    rw [← Int.natCast_modEq_iff, Nat.cast_mul, integer, mul_comm, Nat.cast_one]
    exact (congruent.mul_right _).trans relation
  next => exact absurd inverse (by simp)

/-- The inverse of a word is the reduced word whose product with it is one. -/
theorem inverse?_eq_some_iff {found : UInt64} :
    inverse? word q = some found ↔
      found < q ∧ word.toNat * found.toNat ≡ 1 [MOD q.toNat] := by
  refine ⟨inverse?_sound positive, fun ⟨reduced, product⟩ => ?_⟩
  have coprime : Nat.gcd word.toNat q.toNat = 1 := Nat.coprime_of_mul_modEq_one _ product
  cases other : inverse? word q with
  | none => exact absurd coprime ((inverse?_eq_none_iff positive).mp other)
  | some inverse =>
    obtain ⟨otherReduced, otherProduct⟩ := inverse?_sound positive other
    have congruent : inverse.toNat ≡ found.toNat [MOD q.toNat] :=
      Nat.ModEq.cancel_left_of_coprime (Nat.gcd_comm _ _ ▸ coprime)
        (otherProduct.trans product.symm)
    rw [UInt64.toNat_inj.mp (Nat.ModEq.eq_of_lt_of_lt congruent
      (UInt64.lt_iff_toNat_lt.mp otherReduced) (UInt64.lt_iff_toNat_lt.mp reduced))]

end RingLwe.Residue
