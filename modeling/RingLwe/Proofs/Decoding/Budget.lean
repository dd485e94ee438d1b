import RingLwe.Proofs.Scaling

/-!
# The error of a decoded word

A decoded word is an integer combination of switched words.  Each switched word
is off by at most half a unit for each prime, so the combination is off by that
much for each unit of its weights (`combination_near`).  What the combination
stands for is a sum of messages with noise, up to the rounding with which each
message was scaled (`scaledSum_near`).  A word that is off by less than half of
a plaintext step still rounds to the sum of the messages (`round_of_budget`).
-/

set_option autoImplicit false

namespace RingLwe

/-- A weighted sum of values of one bound is bounded by the sum of the weights. -/
theorem abs_sum_mul_le (count : Nat) (weight value : Nat → Int) {bound : Int}
    (small : ∀ position < count, |value position| ≤ bound) :
    |∑ position ∈ Finset.range count, weight position * value position| ≤
      bound * ∑ position ∈ Finset.range count, |weight position| := by
  calc _ ≤ ∑ position ∈ Finset.range count, |weight position * value position| :=
        Finset.abs_sum_le_sum_abs _ _
    _ ≤ ∑ position ∈ Finset.range count, bound * |weight position| := by
        refine Finset.sum_le_sum ?_
        intro position member
        rw [abs_mul, mul_comm]
        exact mul_le_mul_of_nonneg_right (small position (Finset.mem_range.mp member))
          (abs_nonneg _)
    _ = _ := (Finset.mul_sum _ _ _).symm

section Bounded

variable {values : List Int} {bound : Nat} (small : ∀ value ∈ values, value.natAbs ≤ bound)
include small

theorem abs_getD_le (position : Nat) : |values.getD position 0| ≤ bound := by
  rcases Nat.lt_or_ge position values.length with inside | outside
  · have bounded := small _ (List.getElem_mem inside)
    rw [List.getD_eq_getElem _ _ inside, Int.abs_eq_natAbs]
    exact Int.ofNat_le.mpr bounded
  · rw [List.getD_eq_default _ _ outside, abs_zero]
    exact Int.natCast_nonneg bound

theorem sum_abs_getD_le (count : Nat) :
    ∑ position ∈ Finset.range count, |values.getD position 0| ≤ count * bound := by
  refine (Finset.sum_le_card_nsmul _ _ _ fun position _ => abs_getD_le small position).trans ?_
  rw [Finset.card_range, nsmul_eq_mul]

end Bounded

section Combination

variable {columns dimension : Nat} (entry coefficient : Nat → Int)

/-- A row of a matrix times switched words less a product of switched words with a secret is off by
one bound for each unit of the row and of the secret. -/
theorem combination_near {scale target bound : Int} {sample hint exactSample exactHint : Nat → Int}
    (samples : ∀ position < columns,
      |scale * exactSample position - target * sample position| ≤ bound)
    (hints : ∀ position < dimension,
      |scale * exactHint position - target * hint position| ≤ bound) :
    |scale * (∑ position ∈ Finset.range columns, entry position * exactSample position -
          ∑ position ∈ Finset.range dimension, coefficient position * exactHint position) -
        target * (∑ position ∈ Finset.range columns, entry position * sample position -
          ∑ position ∈ Finset.range dimension, coefficient position * hint position)| ≤
      bound * (∑ position ∈ Finset.range columns, |entry position| +
        ∑ position ∈ Finset.range dimension, |coefficient position|) := by
  have first := abs_sum_mul_le columns entry _ samples
  have second := abs_sum_mul_le dimension coefficient _ hints
  have split : scale * (∑ position ∈ Finset.range columns, entry position * exactSample position -
          ∑ position ∈ Finset.range dimension, coefficient position * exactHint position) -
        target * (∑ position ∈ Finset.range columns, entry position * sample position -
          ∑ position ∈ Finset.range dimension, coefficient position * hint position) =
      (∑ position ∈ Finset.range columns, entry position *
        (scale * exactSample position - target * sample position)) -
      ∑ position ∈ Finset.range dimension, coefficient position *
        (scale * exactHint position - target * hint position) := by
    have distribute : ∀ (count : Nat) (weight left right : Nat → Int),
        ∑ position ∈ Finset.range count, weight position *
            (scale * left position - target * right position) =
          scale * ∑ position ∈ Finset.range count, weight position * left position -
            target * ∑ position ∈ Finset.range count, weight position * right position := by
      intro count weight left right
      rw [Finset.mul_sum, Finset.mul_sum, ← Finset.sum_sub_distrib]
      refine Finset.sum_congr rfl ?_
      intro position _
      ring
    rw [distribute, distribute]
    ring
  rw [split, mul_add]
  exact (abs_sub _ _).trans (add_le_add first second)

end Combination

namespace Context.Lawful

variable {context : Context} (lawful : context.Lawful)
include lawful

/-- A weighted sum of scaled values with noise is the weighted sum of the values, off by the noise
and half a unit for each unit of the weights. -/
theorem scaledSum_near (count : Nat) (weight message : Nat → Nat) (noise : Nat → Int) :
    |2 * ((context.plaintextModulus.toNat : Int) *
          (∑ position ∈ Finset.range count, (weight position : Int) *
            (noise position + context.scaled (message position))) -
        context.basis.modulus *
          (∑ position ∈ Finset.range count, weight position * message position : Nat))| ≤
      context.plaintextModulus.toNat *
        ∑ position ∈ Finset.range count, (weight position : Int) * (2 * |noise position| + 1) := by
  have split : 2 * ((context.plaintextModulus.toNat : Int) *
        (∑ position ∈ Finset.range count, (weight position : Int) *
          (noise position + context.scaled (message position))) -
      context.basis.modulus *
        (∑ position ∈ Finset.range count, weight position * message position : Nat)) =
      ∑ position ∈ Finset.range count, (weight position : Int) *
        (2 * (context.plaintextModulus.toNat * noise position) +
          2 * (context.plaintextModulus.toNat * context.scaled (message position) -
            context.basis.modulus * message position)) := by
    push_cast
    rw [Finset.mul_sum, Finset.mul_sum, ← Finset.sum_sub_distrib, Finset.mul_sum]
    refine Finset.sum_congr rfl ?_
    intro position _
    ring
  rw [split, Finset.mul_sum]
  refine (Finset.abs_sum_le_sum_abs _ _).trans (Finset.sum_le_sum fun position _ => ?_)
  have near := lawful.scaled_near (message position)
  have scaledNoise : |2 * ((context.plaintextModulus.toNat : Int) * noise position)| =
      context.plaintextModulus.toNat * (2 * |noise position|) := by
    rw [abs_mul, abs_mul, Nat.abs_cast, abs_two]
    ring
  rw [abs_mul, Nat.abs_cast]
  calc _ ≤ (weight position : Int) * (context.plaintextModulus.toNat * (2 * |noise position|) +
        context.plaintextModulus.toNat) := by
        refine mul_le_mul_of_nonneg_left ((abs_add_le _ _).trans ?_) (Int.natCast_nonneg _)
        rw [scaledNoise]
        exact add_le_add_right near _
    _ = _ := by ring

end Context.Lawful

/-- A word that is congruent to a combination within the budget rounds to the sum of the messages
for which the combination stands. -/
theorem round_of_budget {hybrid modulus p word total : Nat} (above : 0 < p)
    {combination value carried slack noise : Int}
    (congruent : (word : Int) ≡ combination [ZMOD hybrid])
    (shifted : value ≡ carried [ZMOD modulus])
    (near : |2 * (modulus : Int) * combination - 2 * hybrid * value| ≤ slack)
    (scaled : |2 * ((p : Int) * carried - modulus * total)| ≤ noise)
    (budget : hybrid * noise + p * slack < hybrid * modulus) :
    (word * p + hybrid / 2) / hybrid % p = total % p := by
  obtain ⟨wraps, wrapped⟩ := Int.modEq_iff_dvd.mp congruent
  obtain ⟨turns, turned⟩ := Int.modEq_iff_dvd.mp shifted
  obtain ⟨error, exact⟩ : ∃ error : Int,
      (word : Int) * p = hybrid * (total + p * (-turns - wraps)) + error :=
    ⟨_, (add_sub_cancel _ _).symm⟩
  have parts : 2 * (modulus : Int) * error =
      p * (2 * (modulus : Int) * combination - 2 * hybrid * value) +
        hybrid * (2 * ((p : Int) * carried - modulus * total)) := by
    linear_combination -2 * (modulus : Int) * exact - 2 * (modulus : Int) * p * wrapped -
      2 * (hybrid : Int) * p * turned
  have bounded : (modulus : Int) * |2 * error| < modulus * hybrid := by
    calc (modulus : Int) * |2 * error| = |2 * (modulus : Int) * error| := by
          rw [mul_assoc, mul_left_comm, abs_mul (modulus : Int), Nat.abs_cast]
      _ ≤ |p * (2 * (modulus : Int) * combination - 2 * hybrid * value)| +
          |hybrid * (2 * ((p : Int) * carried - modulus * total))| := by
          rw [parts]
          exact abs_add_le _ _
      _ ≤ p * slack + hybrid * noise := by
          rw [abs_mul, abs_mul, Nat.abs_cast, Nat.abs_cast]
          exact add_le_add (mul_le_mul_of_nonneg_left near (Int.natCast_nonneg _))
            (mul_le_mul_of_nonneg_left scaled (Int.natCast_nonneg _))
      _ < modulus * hybrid := by linarith
  refine round_of_near (Nat.mod_lt _ above) (-turns - wraps + (total / p : Nat)) error ?_
    (lt_of_mul_lt_mul_left bounded (Int.natCast_nonneg _))
  have divided : (total : Int) = (total % p : Nat) + p * (total / p : Nat) := by
    exact_mod_cast (Nat.mod_add_div total p).symm
  rw [exact]
  linear_combination (hybrid : Int) * divided

end RingLwe
