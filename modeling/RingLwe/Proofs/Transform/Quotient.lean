import RingLwe.Proofs.Transform.Negacyclic

/-!
# The ring of polynomials modulo `X^n + 1`

A list of integers gives the coefficients of a polynomial modulo `q`
(`polynomial`) and stands for its class in `Z_q[X] / (X^n + 1)` (`element`).

The class of `X` is a root of `-1` there, so the product that is read off the
matrix of multiplication is the product of the ring (`element_product`).  No
polynomial of smaller degree is a multiple of `X^n + 1`, so `n` coefficients are
determined modulo `q` by the class (`element_inj`), those of a product in
particular (`element_eq_mul_iff`).
-/

set_option autoImplicit false

namespace RingLwe.Negacyclic

open Polynomial

/-! ## Polynomials modulo `q` -/

/-- The polynomial modulo `q` with the given integer coefficients, the constant one first. -/
noncomputable def polynomial (q : Nat) (coefficients : List Int) : Polynomial (ZMod q) :=
  evaluate (coefficients.map (Int.castRingHom (Polynomial (ZMod q)))) X

theorem coeff_polynomial (q : Nat) (coefficients : List Int) (position : Nat) :
    (polynomial q coefficients).coeff position = (coefficients.getD position 0 : ZMod q) := by
  induction coefficients generalizing position with
  | nil => rw [List.getD_nil, Int.cast_zero]; exact coeff_zero position
  | cons coefficient rest ih =>
    have peeled : polynomial q (coefficient :: rest) =
        C (coefficient : ZMod q) + X * polynomial q rest := by
      rw [map_intCast]
      rfl
    rw [peeled, coeff_add]
    cases position with
    | zero => rw [coeff_C_zero, coeff_X_mul_zero, add_zero, List.getD_cons_zero]
    | succ position => rw [coeff_C_succ, coeff_X_mul, zero_add, ih, List.getD_cons_succ]

theorem degree_polynomial_lt (q : Nat) (coefficients : List Int) :
    (polynomial q coefficients).degree < coefficients.length := by
  refine (degree_lt_iff_coeff_zero _ _).mpr ?_
  intro position behind
  rw [coeff_polynomial, List.getD_eq_default _ _ behind, Int.cast_zero]

/-- Two lists of `n` coefficients give one polynomial when they agree modulo `q`. -/
theorem polynomial_inj {q n : Nat} {left right : List Int} (leftFull : left.length = n)
    (rightFull : right.length = n) :
    polynomial q left = polynomial q right ↔
      ∀ position < n, left.getD position 0 ≡ right.getD position 0 [ZMOD q] := by
  rw [Polynomial.ext_iff]
  refine forall_congr' fun position => ?_
  rw [coeff_polynomial, coeff_polynomial, ZMod.intCast_eq_intCast_iff]
  rcases Nat.lt_or_ge position n with inside | behind
  · exact ⟨fun same _ => same, fun same => same inside⟩
  · rw [List.getD_eq_default _ _ (by omega), List.getD_eq_default _ _ (by omega)]
    exact ⟨fun same _ => same, fun _ => rfl⟩

/-! ## Their classes modulo `X^n + 1` -/

/-- The polynomials with coefficients modulo `q`, modulo `X^n + 1`. -/
abbrev Quotient (q n : Nat) : Type :=
  AdjoinRoot (X ^ n + 1 : Polynomial (ZMod q))

/-- The class of the polynomial with the given integer coefficients. -/
noncomputable def element (q n : Nat) (coefficients : List Int) : Quotient q n :=
  AdjoinRoot.mk _ (polynomial q coefficients)

/-- The class of a polynomial is its value at the class of `X`. -/
theorem element_eq_evaluate (q n : Nat) (coefficients : List Int) :
    element q n coefficients =
      evaluate (coefficients.map (Int.castRingHom (Quotient q n))) (AdjoinRoot.root _) := by
  induction coefficients with
  | nil => exact map_zero _
  | cons coefficient rest ih =>
    rw [element, polynomial] at ih
    rw [element, polynomial]
    simp only [evaluate, List.map_cons, List.foldr_cons, map_add, map_mul] at ih ⊢
    rw [ih, AdjoinRoot.mk_X, eq_intCast, eq_intCast, map_intCast]

theorem root_pow (q n : Nat) :
    (AdjoinRoot.root (X ^ n + 1 : Polynomial (ZMod q))) ^ n = -1 := by
  have vanishes := AdjoinRoot.eval₂_root (X ^ n + 1 : Polynomial (ZMod q))
  rw [eval₂_add, eval₂_pow, eval₂_X, eval₂_one] at vanishes
  exact eq_neg_of_add_eq_zero_left vanishes

theorem element_product (q : Nat) {n : Nat} {left right : List Int} (leftFull : left.length = n)
    (rightFull : right.length = n) :
    element q n (product n left right) = element q n left * element q n right := by
  rw [element_eq_evaluate, element_eq_evaluate, element_eq_evaluate, ← product_map]
  apply evaluate_product
  · rw [List.length_map, leftFull]
  · rw [List.length_map, rightFull]
  · exact root_pow q n

/-- Polynomials of degree below `n` have one class only if they are equal. -/
theorem eq_of_dvd_sub {q n : Nat} (above : 1 < q) (positive : 0 < n)
    {left right : Polynomial (ZMod q)} (leftBelow : left.degree < n) (rightBelow : right.degree < n)
    (multiple : X ^ n + 1 ∣ left - right) : left = right := by
  have : Fact (1 < q) := ⟨above⟩
  have monic : (X ^ n + 1 : Polynomial (ZMod q)).Monic :=
    monic_X_pow_add_C 1 (Nat.ne_of_gt positive)
  have degree : (X ^ n + 1 : Polynomial (ZMod q)).degree = n := degree_X_pow_add_C positive 1
  by_contra different
  refine monic.not_dvd_of_degree_lt (sub_ne_zero.mpr different) ?_ multiple
  rw [degree]
  exact (degree_sub_le _ _).trans_lt (max_lt leftBelow rightBelow)

/-- Two lists of `n` coefficients have one class when they agree modulo `q`, and only then. -/
theorem element_inj {q n : Nat} (above : 1 < q) {left right : List Int}
    (leftFull : left.length = n) (rightFull : right.length = n) :
    element q n left = element q n right ↔
      ∀ position < n, left.getD position 0 ≡ right.getD position 0 [ZMOD q] := by
  rw [← polynomial_inj leftFull rightFull, element, element, AdjoinRoot.mk_eq_mk]
  constructor
  · intro multiple
    rcases Nat.eq_zero_or_pos n with rfl | positive
    · rw [List.length_eq_zero_iff.mp leftFull, List.length_eq_zero_iff.mp rightFull]
    · exact eq_of_dvd_sub above positive (leftFull ▸ degree_polynomial_lt q left)
        (rightFull ▸ degree_polynomial_lt q right) multiple
  · intro same
    rw [same, sub_self]
    exact dvd_zero _

theorem element_eq_mul_iff {q n : Nat} (above : 1 < q) {left right coefficients : List Int}
    (leftFull : left.length = n) (rightFull : right.length = n)
    (full : coefficients.length = n) :
    element q n coefficients = element q n left * element q n right ↔
      ∀ position < n,
        coefficients.getD position 0 ≡ (product n left right).getD position 0 [ZMOD q] := by
  rw [← element_product q leftFull rightFull]
  exact element_inj above full (length_product n left right)

end RingLwe.Negacyclic
