import RingLwe.Proofs.Context
import RingLwe.Proofs.Modular.Remainders

/-!
# The contexts of the presets

The moduli that are chosen for a width and a dimension are distinct primes that are
one more than a multiple of twice the dimension (`selectModuli_spec`).  So the
searches for primes, for inverses and for roots of unity never fail: for every
supported dimension they find what they look for (`exists_parts`).

With them the preset of each width has a context (`exists_preset`).  That of 32
bits has a single modulus, that of 64 bits has three (`presetModuli`).
-/

set_option autoImplicit false

namespace RingLwe.Context

/-! ## The chosen primes -/

/-- The moduli that are chosen are, run by run, the largest primes of their size. -/
theorem selectModuli_eq_ok {width : Width} {dimension : Nat} {moduli : List UInt64}
    (selected : selectModuli width dimension = .ok moduli) :
    ∃ runs, moduli = runs.flatten ∧
      List.Forall₂ (fun size primes => largestPrimes? size.1 size.2 dimension = some primes)
        width.primeRuns runs := by
  obtain ⟨runs, found, joined⟩ := bind_eq_ok_iff.mp selected
  cases joined
  refine ⟨runs, rfl, (forall₂_of_mapM_eq_ok found).imp fun size primes made => ?_⟩
  dsimp only at made
  split at made
  next => cases made; assumption
  next => cases made

theorem length_of_selectModuli {width : Width} {dimension : Nat} {moduli : List UInt64}
    (selected : selectModuli width dimension = .ok moduli) :
    moduli.length = (width.primeRuns.map Prod.snd).sum := by
  obtain ⟨runs, rfl, pairs⟩ := selectModuli_eq_ok selected
  have lengths : width.primeRuns.map Prod.snd = runs.map List.length := by
    rw [← List.forall₂_eq_eq_eq, List.forall₂_map_left_iff, List.forall₂_map_right_iff]
    exact pairs.imp fun _ _ found => (largestPrimes?_spec found).1.symm
  rw [lengths, List.length_flatten]

theorem primeRuns_increasing (width : Width) :
    width.primeRuns.Pairwise fun first second => first.1 < second.1 := by
  cases width <;> decide

/-- The moduli that are chosen are distinct, pass the primality test, and are one more than a
multiple of twice the dimension. -/
theorem selectModuli_spec {width : Width} {dimension : Nat} {moduli : List UInt64}
    (selected : selectModuli width dimension = .ok moduli) :
    moduli ≠ [] ∧ moduli.Nodup ∧
      ∀ q ∈ moduli, isPrime q = true ∧ q.toNat % (2 * dimension) = 1 := by
  obtain ⟨runs, rfl, pairs⟩ := selectModuli_eq_ok selected
  refine ⟨?_, List.nodup_flatten.mpr ⟨?_, ?_⟩, ?_⟩
  · have count : 0 < (width.primeRuns.map Prod.snd).sum := by
      cases width <;> decide
    rw [← length_of_selectModuli selected] at count
    exact List.ne_nil_of_length_pos count
  · intro primes member
    obtain ⟨_, _, found⟩ := exists_of_mem_of_forall₂ pairs member
    exact (largestPrimes?_spec found).2.1.imp fun less => (UInt64.ne_of_lt less).symm
  · -- primes of different runs have different numbers of bits
    refine pairwise_of_forall₂ pairs ?_ (primeRuns_increasing width)
    intro first second firstPrimes secondPrimes smaller firstFound secondFound q inFirst inSecond
    obtain ⟨_, _, _, upper⟩ := (largestPrimes?_spec firstFound).2.2 q inFirst
    obtain ⟨_, _, lower, _⟩ := (largestPrimes?_spec secondFound).2.2 q inSecond
    have apart : 2 ^ first.1 ≤ 2 ^ (second.1 - 1) := Nat.pow_le_pow_right (by decide) (by omega)
    omega
  · intro q member
    obtain ⟨primes, inside, listed⟩ := List.mem_flatten.mp member
    obtain ⟨_, _, found⟩ := exists_of_mem_of_forall₂ pairs inside
    obtain ⟨passed, congruent, _⟩ := (largestPrimes?_spec found).2.2 q listed
    exact ⟨passed, congruent⟩

theorem pairwise_coprime_of_primes {moduli : List UInt64} (distinct : moduli.Nodup)
    (primes : ∀ q ∈ moduli, Nat.Prime q.toNat) :
    (moduli.map UInt64.toNat).Pairwise Nat.Coprime := by
  refine List.pairwise_map.mpr (distinct.pairwise_of_forall_ne ?_)
  intro left leftMember right rightMember different
  refine (Nat.coprime_primes (primes left leftMember) (primes right rightMember)).mpr ?_
  intro same
  exact different (UInt64.toNat_inj.mp same)

/-- Every part of a context can be made for valid parameters. -/
theorem exists_parts {parameters : Parameters} (valid : parameters.Valid) :
    ∃ moduli basis transform gaussian,
      selectModuli parameters.width parameters.ringDimension = .ok moduli ∧
      Basis.ofModuli? moduli = some basis ∧
      Transform.ofModuli parameters.ringDimension moduli = .ok transform ∧
      Gaussian.ofSigma? parameters.sigma = some gaussian := by
  have chosen := selectsPrimes_of_mem parameters.width _
    (mem_dimensions (Parameters.supportedDimension_iff.mpr valid.dimension))
  rcases selected : selectModuli parameters.width parameters.ringDimension with failure | moduli
  · rw [selected] at chosen
    cases chosen
  · rw [selected, selectsPrimes, Bool.and_eq_true, List.all_eq_true] at chosen
    have primes : ∀ q ∈ moduli, Nat.Prime q.toNat :=
      fun q member => prime_of_certified (chosen.2 q member)
    obtain ⟨nonempty, distinct, each⟩ := selectModuli_spec selected
    obtain ⟨exponent, _, _, power⟩ := valid.dimension
    obtain ⟨basis, based⟩ := Basis.exists_ofModuli? nonempty
      (fun q member => (primes q member).two_le) (pairwise_coprime_of_primes distinct primes)
    obtain ⟨transform, transformed⟩ := Transform.exists_ofModuli nonempty primes
      (fun q member => power ▸ (each q member).2)
    have drawn : Gaussian.ofSigma? parameters.sigma =
        some ⟨parameters.sigma, Gaussian.tailCutOf parameters.sigma⟩ :=
      if_pos ((Gaussian.usable_iff _).mpr ⟨valid.finite, valid.positive⟩)
    exact ⟨moduli, basis, transform, _, rfl, based, power ▸ transformed, drawn⟩

/-! ## The presets -/

/-- The moduli of the preset of a width. -/
def presetModuli : Width → List UInt64
  | .bits32 => [8589905921]
  | .bits64 => [4294828033, 8589852673, 8589844481]

theorem selectModuli_preset (width : Width) :
    selectModuli width width.presetDimension = .ok (presetModuli width) := by
  cases width with
  | bits32 =>
    have largest : largestPrimes? 33 1 2048 = some [8589905921] := by decide +kernel
    simp only [selectModuli, Width.primeRuns, Width.presetDimension, List.mapM_cons, largest]
    rfl
  | bits64 =>
    have largest : largestPrimes? 32 1 4096 = some [4294828033] := by decide +kernel
    have larger : largestPrimes? 33 2 4096 = some [8589852673, 8589844481] := by decide +kernel
    simp only [selectModuli, Width.primeRuns, Width.presetDimension, List.mapM_cons, largest, larger]
    rfl

theorem valid_preset (width : Width) : (Parameters.preset width).Valid where
  dimension := Parameters.supportedDimension_iff.mp (by cases width <;> decide)
  two_le := by cases width <;> decide
  switching _ := by cases width <;> decide
  finite := by change defaultSigma.isFinite = true; decide +kernel
  positive := by change 0.0 < defaultSigma; decide +kernel

theorem exists_preset (width : Width) :
    ∃ context, ofParameters (Parameters.preset width) = .ok context := by
  have valid := valid_preset width
  obtain ⟨moduli, basis, transform, gaussian, selected, based, transformed, drawn⟩ :=
    exists_parts valid
  obtain rfl : presetModuli width = moduli :=
    Except.ok.inj ((selectModuli_preset width).symm.trans selected)
  have below : width.presetPlaintextModulus < basis.minModulus := by
    rw [Basis.minModulus, (Basis.sound_of_ofModuli? based).2.1]
    cases width <;> decide
  exact exists_of_parts (Parameters.validate_of_valid valid) selected based below transformed drawn

section Numbers

variable {width : Width} {context : Context}
  (built : ofParameters (Parameters.preset width) = .ok context)
include built

theorem moduli_of_preset : context.moduli = presetModuli width := by
  obtain ⟨lawful, same⟩ := ofParameters_spec built
  have selected := lawful.selected
  rw [Context.width, dimension, same] at selected
  exact (Except.ok.inj ((selectModuli_preset width).symm.trans selected)).symm

theorem numbers_of_preset :
    context.dimension = width.presetDimension ∧
      context.plaintextModulus = width.presetPlaintextModulus ∧
      context.primeCount = (presetModuli width).length ∧
      context.basis.modulus = Basis.product (presetModuli width) := by
  obtain ⟨lawful, same⟩ := ofParameters_spec built
  have product : context.basis.modulus = Basis.product context.moduli :=
    lawful.basis_sound.product
  refine ⟨?_, ?_, ?_, ?_⟩
  · rw [dimension, same]
    rfl
  · rw [plaintextModulus, same]
    rfl
  · rw [← Lawful.length_moduli, moduli_of_preset built]
  · rw [product, moduli_of_preset built]

theorem switchTables_preset :
    context.switchTables width = .ok (SwitchTables.ofBasis width context.basis) := by
  obtain ⟨lawful, same⟩ := ofParameters_spec built
  simp only [switchTables, lawful.switching, Context.width, same, Parameters.preset, if_true]

end Numbers

section Small

variable {context : Context} (built : ofParameters (Parameters.preset .bits32) = .ok context)
include built

theorem moduli_preset : context.moduli = [8589905921] :=
  moduli_of_preset built

theorem preset_spec :
    context.dimension = 2048 ∧ context.plaintextModulus = 128 ∧ context.primeCount = 1 ∧
      context.basis.modulus = 8589905921 :=
  numbers_of_preset built

end Small

theorem wide_preset_spec {context : Context}
    (built : ofParameters (Parameters.preset .bits64) = .ok context) :
    context.dimension = 4096 ∧ context.plaintextModulus = 32768 ∧ context.primeCount = 3 ∧
      context.basis.modulus = 316896027712107794618409238529 := by
  obtain ⟨dimension, plaintext, count, product⟩ := numbers_of_preset built
  exact ⟨dimension, plaintext, count, product.trans (by decide)⟩

end RingLwe.Context
