import RingLwe.Parameters
import RingLwe.Proofs.Modular.Search
import RingLwe.Proofs.Random

/-!
# Which parameters are valid

The supported ring dimensions are the powers of two from `2^10` to `2^15`
(`supportedDimension_iff`).  Validation accepts what is `Valid` and changes
nothing; everything else is refused with a fault whose condition applies
(`validate_outcome`, `validate_eq_ok`).
-/

set_option autoImplicit false

namespace RingLwe.Parameters

/-! ## Dimensions -/

/-- Whether a ring dimension is a power of two from `2^10` to `2^15`. -/
def PowerInRange (dimension : Nat) : Prop :=
  ∃ exponent, 10 ≤ exponent ∧ exponent ≤ 15 ∧ dimension = 2 ^ exponent

theorem supportedDimension_iff {dimension : Nat} :
    supportedDimension dimension = true ↔ PowerInRange dimension := by
  have least : leastDimension = 2 ^ 10 := rfl
  have greatest : greatestDimension = 2 ^ 15 := rfl
  rw [supportedDimension, Bool.and_eq_true, Bool.and_eq_true, decide_eq_true_eq,
    decide_eq_true_eq, isPowerOfTwo_iff, least, greatest]
  constructor
  · rintro ⟨⟨⟨exponent, rfl⟩, lower⟩, upper⟩
    exact ⟨exponent, (Nat.pow_le_pow_iff_right (by decide)).mp lower,
      (Nat.pow_le_pow_iff_right (by decide)).mp upper, rfl⟩
  · rintro ⟨exponent, lower, upper, rfl⟩
    exact ⟨⟨⟨exponent, rfl⟩, Nat.pow_le_pow_right (by decide) lower⟩,
      Nat.pow_le_pow_right (by decide) upper⟩

/-! ## Validation -/

/-- What is asked of parameters before primes are chosen. -/
structure Valid (parameters : Parameters) : Prop where
  dimension : PowerInRange parameters.ringDimension
  two_le : 2 ≤ parameters.plaintextModulus.toNat
  switching : parameters.switching = true →
    parameters.plaintextModulus.toNat ≤ parameters.width.modulus / 2
  finite : parameters.sigma.isFinite = true
  positive : 0.0 < parameters.sigma

/-- The faults for which parameters are refused before primes are chosen, each with its condition. -/
inductive Invalid (parameters : Parameters) : ParameterFault → Prop where
  | ringDimension (outside : ¬ PowerInRange parameters.ringDimension) :
      Invalid parameters (.ringDimension parameters.ringDimension (2 ^ 10) (2 ^ 15))
  | tooSmall (below : parameters.plaintextModulus.toNat < 2) :
      Invalid parameters (.plaintextModulusTooSmall parameters.plaintextModulus)
  | tooLarge (switching : parameters.switching = true)
      (above : parameters.width.modulus / 2 < parameters.plaintextModulus.toNat) :
      Invalid parameters (.plaintextModulusTooLarge parameters.plaintextModulus parameters.width)
  | deviation (unusable : ¬ (parameters.sigma.isFinite = true ∧ 0.0 < parameters.sigma)) :
      Invalid parameters (.deviation parameters.sigma)

theorem Invalid.not_valid {parameters : Parameters} {fault : ParameterFault}
    (invalid : Invalid parameters fault) : ¬ Valid parameters := by
  intro valid
  cases invalid with
  | ringDimension outside => exact outside valid.dimension
  | tooSmall below => exact absurd valid.two_le (Nat.not_le.mpr below)
  | tooLarge switching above => exact absurd (valid.switching switching) (Nat.not_le.mpr above)
  | deviation unusable => exact unusable ⟨valid.finite, valid.positive⟩

/-- Parameters are valid, or refused for a condition that applies to them. -/
theorem validate_outcome (parameters : Parameters) :
    (parameters.validate = .ok parameters ∧ Valid parameters) ∨
      ∃ fault, parameters.validate = .error (.invalidParameters fault) ∧
        Invalid parameters fault := by
  simp only [validate]
  split
  next unsupported =>
    refine .inr ⟨_, rfl, .ringDimension ?_⟩
    rw [← supportedDimension_iff]
    simpa using unsupported
  next supported =>
    split
    next small => exact .inr ⟨_, rfl, .tooSmall (UInt64.lt_iff_toNat_lt.mp small)⟩
    next large =>
      split
      next exceeds =>
        obtain ⟨switching, above⟩ := Bool.and_eq_true_iff.mp exceeds
        exact .inr ⟨_, rfl, .tooLarge switching (of_decide_eq_true above)⟩
      next fits =>
        split
        next unusable =>
          refine .inr ⟨_, rfl, .deviation ?_⟩
          rw [← Gaussian.usable_iff]
          simpa using unusable
        next usable =>
          obtain ⟨finite, positive⟩ := (Gaussian.usable_iff _).mp (by simpa using usable)
          refine .inl ⟨rfl, ?_⟩
          exact
            { dimension := supportedDimension_iff.mp (by simpa using supported)
              two_le := UInt64.le_iff_toNat_le.mp (UInt64.not_lt.mp large)
              switching := fun switching => by simpa [switching] using fits
              finite
              positive }

theorem validate_of_valid {parameters : Parameters} (valid : Valid parameters) :
    parameters.validate = .ok parameters := by
  rcases validate_outcome parameters with ⟨accepted, _⟩ | ⟨fault, _, invalid⟩
  · exact accepted
  · exact absurd valid invalid.not_valid

theorem validate_eq_ok {unchecked parameters : Parameters}
    (accepted : unchecked.validate = .ok parameters) :
    parameters = unchecked ∧ Valid parameters := by
  rcases validate_outcome unchecked with ⟨same, valid⟩ | ⟨fault, refused, _⟩
  · cases Except.ok.inj (same.symm.trans accepted)
    exact ⟨rfl, valid⟩
  · rw [refused] at accepted
    cases accepted

end RingLwe.Parameters
