import RingLwe.Proofs.Context.Presets
import RingLwe.Proofs.Switching

/-!
# Which parameters have a context

Every refusal of parameters states its condition (`Justified`), and parameters
to which no condition applies are `Acceptable`.  Each parameter set has a
context or is refused for a condition that applies to it
(`ofParameters_outcome`), so the acceptable ones are exactly those that have a
context (`exists_iff_acceptable`), and they have one without switching tables, too
(`exists_unswitched`).

The tables of a context that was built fit together (`Established`): basis and
transform have the same distinct primes, and the constants for scaling and
switching are the quotients and remainders that they stand for.
-/

set_option autoImplicit false

namespace RingLwe.Context

/-! ## Conditions -/

/-- What is asked of parameters: they are valid, and the plaintext modulus is below every prime. -/
structure Acceptable (parameters : Parameters) : Prop extends parameters.Valid where
  below : ∃ moduli, selectModuli parameters.width parameters.ringDimension = .ok moduli ∧
    ∀ q ∈ moduli, parameters.plaintextModulus < q

/-- The faults for which parameters are refused, each with its condition. -/
inductive Justified (parameters : Parameters) : ParameterFault → Prop where
  | invalid {fault : ParameterFault} (invalid : parameters.Invalid fault) :
      Justified parameters fault
  | notBelowPrimes {moduli : List UInt64} {least : UInt64}
      (selected : selectModuli parameters.width parameters.ringDimension = .ok moduli)
      (member : least ∈ moduli) (smallest : ∀ q ∈ moduli, least ≤ q)
      (reached : least ≤ parameters.plaintextModulus) :
      Justified parameters
        (.plaintextModulusNotBelowPrimes parameters.plaintextModulus least)

/-- A condition for a refusal contradicts what is asked of parameters. -/
theorem Justified.not_acceptable {parameters : Parameters} {fault : ParameterFault}
    (justified : Justified parameters fault) : ¬ Acceptable parameters := by
  intro acceptable
  cases justified with
  | invalid invalid => exact invalid.not_valid acceptable.toValid
  | notBelowPrimes selected member _ reached =>
    obtain ⟨moduli, found, below⟩ := acceptable.below
    cases Except.ok.inj (selected.symm.trans found)
    exact absurd (below _ member) (UInt64.not_lt.mpr reached)

/-! ## Outcomes -/

/-- Parameters are acceptable and have a context, or are refused for a condition that applies to
them. -/
theorem ofParameters_outcome (parameters : Parameters) :
    (Acceptable parameters ∧ ∃ context, ofParameters parameters = .ok context) ∨
      ∃ fault, ofParameters parameters = .error (.invalidParameters fault) ∧
        Justified parameters fault := by
  rcases parameters.validate_outcome with ⟨accepted, valid⟩ | ⟨fault, refused, invalid⟩
  · obtain ⟨moduli, basis, transform, gaussian, selected, based, transformed, drawn⟩ :=
      exists_parts valid
    obtain ⟨_, same, nonempty⟩ := Basis.sound_of_ofModuli? based
    obtain ⟨member, smallest⟩ := Basis.minModulus_spec (same ▸ nonempty)
    rw [same] at member smallest
    rcases ofParameters_of_parts accepted selected based transformed drawn with
      ⟨below, built⟩ | ⟨reached, refused⟩
    · refine .inl ⟨{ valid with below := ⟨moduli, selected, fun q inside => ?_⟩ }, built⟩
      exact UInt64.lt_of_lt_of_le below (smallest q inside)
    · exact .inr ⟨_, refused, .notBelowPrimes selected member smallest reached⟩
  · refine .inr ⟨fault, ?_, .invalid invalid⟩
    rw [ofParameters, refused]
    rfl

/-- Parameters have a context exactly when they are acceptable. -/
theorem exists_iff_acceptable {parameters : Parameters} :
    (∃ context, ofParameters parameters = .ok context) ↔ Acceptable parameters := by
  rcases ofParameters_outcome parameters with ⟨acceptable, built⟩ | ⟨fault, refused, justified⟩
  · exact ⟨fun _ => acceptable, fun _ => built⟩
  · refine ⟨?_, fun acceptable => absurd acceptable justified.not_acceptable⟩
    rintro ⟨context, built⟩
    rw [refused] at built
    cases built

/-- Acceptable parameters have a context without switching tables, too. -/
theorem exists_unswitched {parameters : Parameters} (acceptable : Acceptable parameters) :
    ∃ context, ofParameters { parameters with switching := false } = .ok context ∧
      ∀ width, context.switchTables width = .error .switchingDisabled := by
  have valid : Parameters.Valid { parameters with switching := false } :=
    { acceptable.toValid with switching := fun impossible => Bool.noConfusion impossible }
  obtain ⟨context, built⟩ := exists_iff_acceptable.mpr { valid with below := acceptable.below }
  obtain ⟨lawful, same⟩ := ofParameters_spec built
  have none : context.switching = none := by
    rw [lawful.switching, same]
    rfl
  refine ⟨context, built, fun width => ?_⟩
  rw [switchTables, none]

/-! ## What is established -/

/-- How the parts of a context that was built for parameters fit together. -/
structure Established (parameters : Parameters) (context : Context) : Prop where
  kept : context.parameters = parameters
  selected : selectModuli parameters.width parameters.ringDimension = .ok context.basis.moduli
  distinct : context.basis.moduli.Nodup
  primes : ∀ q ∈ context.basis.moduli, isPrime q = true
  congruent : ∀ q ∈ context.basis.moduli, q.toNat % (2 * parameters.ringDimension) = 1
  product : context.basis.modulus = (context.basis.moduli.map UInt64.toNat).prod
  transformModuli : context.transform.moduli = context.basis.moduli
  transformSize : context.transform.size = parameters.ringDimension
  delta : context.delta.map UInt64.toNat = context.basis.moduli.map fun q =>
    context.basis.modulus / parameters.plaintextModulus.toNat % q.toNat
  remainder : context.remainder = context.basis.modulus % parameters.plaintextModulus.toNat
  prepared : context.switching.isSome = parameters.switching
  tables : ∀ tables, context.switching = some tables →
    tables.width = parameters.width ∧
      tables.limbs.map SwitchLimb.modulus = context.basis.moduli ∧
      ∀ limb ∈ tables.limbs,
        limb.quotient.toNat * limb.modulus.toNat + limb.remainder.toNat =
            parameters.width.modulus ∧
          limb.remainder < limb.modulus ∧
          limb.puncturedInverse.toNat * (context.basis.modulus / limb.modulus.toNat) ≡ 1
            [MOD limb.modulus.toNat]

/-- The constants of a prime for switching are the quotient and the remainder of the hybrid modulus,
and the inverse of the product of the other primes. -/
theorem constants_ofLimb {basis : Basis} (sound : basis.Sound) (width : Width) {limb : Basis.Limb}
    (member : limb ∈ basis.limbs) :
    (SwitchLimb.ofLimb width limb).quotient.toNat * limb.modulus.toNat +
          (SwitchLimb.ofLimb width limb).remainder.toNat = width.modulus ∧
      (SwitchLimb.ofLimb width limb).remainder < limb.modulus ∧
      limb.puncturedInverse.toNat * (basis.modulus / limb.modulus.toNat) ≡ 1
        [MOD limb.modulus.toNat] := by
  have above := sound.two_le limb member
  have quotient := SwitchLimb.toNat_quotient width above
  have remainder := SwitchLimb.toNat_remainder width above
  refine ⟨?_, ?_, ?_⟩
  · rw [quotient, remainder, Nat.mul_comm, Nat.div_add_mod]
  · rw [UInt64.lt_iff_toNat_lt, remainder]
    exact Nat.mod_lt _ (by omega)
  · rw [← sound.punctured limb member, Nat.mul_div_cancel_left _ (by omega), Nat.mul_comm]
    exact sound.inverse limb member

theorem established_of_ofParameters {parameters : Parameters} {context : Context}
    (built : ofParameters parameters = .ok context) : Established parameters context := by
  obtain ⟨lawful, rfl⟩ := ofParameters_spec built
  have sound := lawful.basis_sound
  obtain ⟨_, distinct, each⟩ := selectModuli_spec lawful.selected
  exact
    { kept := rfl
      selected := lawful.selected
      distinct
      primes := fun q member => (each q member).1
      congruent := fun q member => (each q member).2
      product := sound.product.trans (Basis.product_eq_prod _)
      transformModuli := lawful.transform_spec.2.2
      transformSize := lawful.transform_spec.2.1
      delta := by
        rw [lawful.delta]
        exact sound.map_toNat_decompose _
      remainder := lawful.remainder
      prepared := by
        rw [lawful.switching]
        split
        next switching => exact switching.symm
        next disabled => exact (Bool.eq_false_iff.mpr disabled).symm
      tables := by
        intro tables present
        rw [lawful.switching] at present
        split at present
        next =>
          cases present
          refine ⟨rfl, ?_, ?_⟩
          · rw [SwitchTables.ofBasis, List.map_map]
            rfl
          · intro limb member
            obtain ⟨origin, inside, rfl⟩ := List.mem_map.mp member
            exact constants_ofLimb sound _ inside
        next => cases present }

/-- Parameters have a context exactly when they are acceptable.  Other parameters are refused for a
condition that applies to them, and never because primes, inverses or roots of unity are missing.
The parts of a context that is built fit together. -/
theorem construction (parameters : Parameters) :
    ((∃ context, ofParameters parameters = .ok context) ↔ Acceptable parameters) ∧
      (∀ failure, ofParameters parameters = .error failure →
        (∃ fault, failure = .invalidParameters fault ∧ Justified parameters fault) ∧
        (∀ bits dimension, failure ≠ .invalidParameters (.noPrimes bits dimension)) ∧
        failure ≠ .invalidParameters .moduliNotCoprime ∧
        ∀ breach, failure ≠ .invalidParameters (.noTransform breach)) ∧
      ∀ context, ofParameters parameters = .ok context → Established parameters context := by
  refine ⟨exists_iff_acceptable, ?_, fun context built => established_of_ofParameters built⟩
  · intro failure refused
    rcases ofParameters_outcome parameters with ⟨_, _, built⟩ | ⟨fault, found, justified⟩
    · rw [refused] at built
      cases built
    · cases Except.error.inj (refused.symm.trans found)
      refine ⟨⟨fault, rfl, justified⟩, ?_, ?_, ?_⟩
      · rintro bits dimension same
        cases same
        cases justified with
        | invalid invalid => cases invalid
      · intro same
        cases same
        cases justified with
        | invalid invalid => cases invalid
      · intro breach same
        cases same
        cases justified with
        | invalid invalid => cases invalid

/-- The preset of 32 bits has a context.  With the plaintext modulus one it is refused. -/
theorem construction_preset :
    Acceptable (Parameters.preset .bits32) ∧
      (∃ context, ofParameters (Parameters.preset .bits32) = .ok context ∧
        Established (Parameters.preset .bits32) context ∧
        context.basis.moduli = [8589905921]) ∧
      Justified { Parameters.preset .bits32 with plaintextModulus := 1 }
        (.plaintextModulusTooSmall 1) := by
  obtain ⟨context, built⟩ := exists_preset .bits32
  obtain ⟨accepts, _, establishes⟩ := construction (Parameters.preset .bits32)
  obtain ⟨_, refuses, _⟩ := construction { Parameters.preset .bits32 with plaintextModulus := 1 }
  have refused : ofParameters { Parameters.preset .bits32 with plaintextModulus := 1 } =
      .error (.invalidParameters (.plaintextModulusTooSmall 1)) := rfl
  obtain ⟨⟨fault, same, justified⟩, _⟩ := refuses _ refused
  cases same
  exact ⟨accepts.mp ⟨context, built⟩,
    ⟨context, built, establishes context built, moduli_preset built⟩, justified⟩

end RingLwe.Context
