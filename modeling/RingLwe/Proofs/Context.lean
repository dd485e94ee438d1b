import RingLwe.Context
import RingLwe.Proofs.Modular.Basis
import RingLwe.Proofs.Modular.Primes
import RingLwe.Proofs.Parameters
import RingLwe.Proofs.Transform.Buffer

/-!
# What holds of a context

A context that was built from parameters is lawful (`lawful_of_ofParameters`):
its dimension is one of six powers of two, its moduli are at most three
certified primes above the plaintext modulus, and its tables are those of its
moduli.  Contexts of one dimension, plaintext modulus and list of moduli share
all tables by which keys and ciphertexts are made (`SameRing`).
-/

set_option autoImplicit false

namespace RingLwe.Context

/-! ## Dimensions and moduli -/

/-- The supported ring dimensions. -/
def dimensions : List Nat :=
  [1024, 2048, 4096, 8192, 16384, 32768]

theorem mem_dimensions {dimension : Nat}
    (supported : Parameters.supportedDimension dimension = true) : dimension ∈ dimensions := by
  obtain ⟨exponent, lower, upper, rfl⟩ := Parameters.supportedDimension_iff.mp supported
  interval_cases exponent <;> decide

/-- Whether moduli were found, at most three of them, and all of them certified primes. -/
def selectsPrimes (selected : Except Failure (List UInt64)) : Bool :=
  match selected with
  | .ok moduli => moduli.length ≤ 3 && moduli.all certified
  | .error _ => false

theorem selectsPrimes_of_mem (width : Width) :
    ∀ dimension ∈ dimensions, selectsPrimes (selectModuli width dimension) = true := by
  cases width with
  | bits32 => decide +kernel
  | bits64 => decide +kernel

/-! ## Lawful contexts -/

/-- What holds of a context that was built. -/
structure Lawful (context : Context) : Prop where
  supported : Parameters.supportedDimension context.dimension = true
  selected : selectModuli context.width context.dimension = .ok context.moduli
  basis : Basis.ofModuli? context.moduli = some context.basis
  transform : Transform.ofModuli context.dimension context.moduli = .ok context.transform
  two_le : 2 ≤ context.plaintextModulus.toNat
  below : context.plaintextModulus < context.basis.minModulus
  fingerprint : context.fingerprint =
    fingerprintOf context.dimension context.plaintextModulus context.moduli
  delta : context.delta =
    context.basis.decompose (context.basis.modulus / context.plaintextModulus.toNat)
  remainder : context.remainder = context.basis.modulus % context.plaintextModulus.toNat
  switching : context.switching =
    if context.parameters.switching then some (SwitchTables.ofBasis context.width context.basis)
    else none
  switchBound : context.parameters.switching = true →
    2 * context.plaintextModulus.toNat ≤ context.width.modulus
  gaussian : Gaussian.ofSigma? context.parameters.sigma = some context.gaussian

theorem require_eq_ok {α : Type} {fault : ParameterFault} {found : Option α} {value : α}
    (required : require fault found = .ok value) : found = some value := by
  cases found with
  | none => cases required
  | some other =>
    cases required
    rfl

/-- A context that was built is lawful, and is that of the parameters. -/
theorem ofParameters_spec {parameters : Parameters} {context : Context}
    (built : ofParameters parameters = .ok context) :
    context.Lawful ∧ context.parameters = parameters := by
  unfold ofParameters at built
  obtain ⟨checked, valid, selection⟩ := bind_eq_ok_iff.mp built
  obtain ⟨same, holds⟩ := Parameters.validate_eq_ok valid
  obtain ⟨moduli, selected, composition⟩ := bind_eq_ok_iff.mp selection
  obtain ⟨basis, based, comparison⟩ := bind_eq_ok_iff.mp composition
  have found := require_eq_ok based
  obtain ⟨_, rfl, _⟩ := Basis.sound_of_ofModuli? found
  dsimp only at comparison
  split at comparison
  next => cases comparison
  next below =>
    split at comparison
    next transform made =>
      rw [ok_bind] at comparison
      obtain ⟨gaussian, drawn, result⟩ := bind_eq_ok_iff.mp comparison
      cases result
      exact ⟨
        { supported := Parameters.supportedDimension_iff.mpr holds.dimension
          selected, basis := found, transform := made, two_le := holds.two_le
          below := UInt64.not_le.mp below, fingerprint := rfl, delta := rfl, remainder := rfl
          switching := rfl
          switchBound := fun switching => by
            have half := holds.switching switching
            change 2 * checked.plaintextModulus.toNat ≤ checked.width.modulus
            omega
          gaussian := require_eq_ok drawn }, same⟩
    next =>
      obtain ⟨_, impossible, _⟩ := bind_eq_ok_iff.mp comparison
      cases impossible

theorem lawful_of_ofParameters {parameters : Parameters} {context : Context}
    (built : ofParameters parameters = .ok context) : context.Lawful :=
  (ofParameters_spec built).1

/-- When each part of a context can be made, the plaintext modulus decides whether there is one. -/
theorem ofParameters_of_parts {parameters : Parameters} {moduli : List UInt64} {basis : Basis}
    {transform : Transform} {gaussian : Gaussian} (valid : parameters.validate = .ok parameters)
    (selected : selectModuli parameters.width parameters.ringDimension = .ok moduli)
    (based : Basis.ofModuli? moduli = some basis)
    (transformed : Transform.ofModuli parameters.ringDimension moduli = .ok transform)
    (drawn : Gaussian.ofSigma? parameters.sigma = some gaussian) :
    (parameters.plaintextModulus < basis.minModulus ∧
        ∃ context, ofParameters parameters = .ok context) ∨
      (basis.minModulus ≤ parameters.plaintextModulus ∧
        ofParameters parameters = .error (.invalidParameters
          (.plaintextModulusNotBelowPrimes parameters.plaintextModulus basis.minModulus))) := by
  simp only [ofParameters, valid, selected, based, transformed, drawn, require, ok_bind]
  split
  next above => exact .inr ⟨above, rfl⟩
  next below => exact .inl ⟨UInt64.not_le.mp below, _, rfl⟩

/-- Parameters have a context when each of its parts can be made. -/
theorem exists_of_parts {parameters : Parameters} {moduli : List UInt64} {basis : Basis}
    {transform : Transform} {gaussian : Gaussian} (valid : parameters.validate = .ok parameters)
    (selected : selectModuli parameters.width parameters.ringDimension = .ok moduli)
    (based : Basis.ofModuli? moduli = some basis)
    (below : parameters.plaintextModulus < basis.minModulus)
    (transformed : Transform.ofModuli parameters.ringDimension moduli = .ok transform)
    (drawn : Gaussian.ofSigma? parameters.sigma = some gaussian) :
    ∃ context, ofParameters parameters = .ok context := by
  rcases ofParameters_of_parts valid selected based transformed drawn with ⟨_, built⟩ | ⟨above, _⟩
  · exact built
  · exact absurd below (UInt64.not_lt.mpr above)

namespace Lawful

variable {context : Context} (lawful : context.Lawful)
include lawful

theorem basis_sound : context.basis.Sound :=
  (Basis.sound_of_ofModuli? lawful.basis).1

theorem moduli_ne_nil : context.moduli ≠ [] :=
  (Basis.sound_of_ofModuli? lawful.basis).2.2

theorem one_lt_modulus : 1 < context.basis.modulus := by
  obtain ⟨q, member⟩ := List.exists_mem_of_ne_nil _ lawful.moduli_ne_nil
  exact Nat.lt_of_lt_of_le (lawful.basis_sound.modulus_two_le member)
    (Nat.le_of_dvd lawful.basis_sound.modulus_pos (lawful.basis_sound.dvd_modulus member))

theorem selected_spec : context.moduli.length ≤ 3 ∧ ∀ q ∈ context.moduli, certified q = true := by
  have selected := selectsPrimes_of_mem context.width _ (mem_dimensions lawful.supported)
  rw [lawful.selected] at selected
  simpa only [selectsPrimes, Bool.and_eq_true, decide_eq_true_eq, List.all_eq_true] using selected

theorem prime {q : UInt64} (member : q ∈ context.moduli) : Nat.Prime q.toNat :=
  prime_of_certified (lawful.selected_spec.2 q member)

theorem bounds {q : UInt64} (member : q ∈ context.moduli) :
    2 ^ 31 < q.toNat ∧ q.toNat < 2 ^ 33 :=
  bounds_of_certified (lawful.selected_spec.2 q member)

theorem plaintext_pos : 0 < context.plaintextModulus.toNat :=
  Nat.lt_of_lt_of_le Nat.zero_lt_two lawful.two_le

theorem plaintext_lt {q : UInt64} (member : q ∈ context.moduli) :
    context.plaintextModulus.toNat < q.toNat := by
  have below := UInt64.lt_iff_toNat_lt.mp lawful.below
  have order := (Basis.minModulus_spec lawful.moduli_ne_nil).2 q member
  exact Nat.lt_of_lt_of_le below (UInt64.le_iff_toNat_le.mp order)

theorem dimension_pos : 0 < context.dimension := by
  have listed := mem_dimensions lawful.supported
  simp only [dimensions, List.mem_cons, List.not_mem_nil, or_false] at listed
  omega

theorem dimension_le : context.dimension ≤ 32768 := by
  have listed := mem_dimensions lawful.supported
  simp only [dimensions, List.mem_cons, List.not_mem_nil, or_false] at listed
  omega

theorem transform_spec : context.transform.Sound ∧ context.transform.size = context.dimension ∧
    context.transform.moduli = context.moduli := by
  refine Transform.sound_of_ofModuli (fun q member => lawful.prime member) (fun q member => ?_)
    lawful.transform
  have small := (lawful.bounds member).2
  simp only [UInt64.size]
  omega

omit lawful in
theorem length_moduli : context.moduli.length = context.primeCount :=
  List.length_map _

omit lawful in
theorem index_lt {index : Nat} {q : UInt64} (present : context.moduli[index]? = some q) :
    index < context.primeCount := by
  rw [← length_moduli]
  exact (List.getElem?_eq_some_iff.mp present).1

theorem transform_count : context.transform.count = context.primeCount := by
  rw [← length_moduli, ← lawful.transform_spec.2.2]
  exact (List.length_map _).symm

theorem bufferLength_eq :
    context.transform.bufferLength = context.dimension * context.primeCount := by
  rw [Transform.bufferLength, lawful.transform_spec.2.1, lawful.transform_count]

theorem primeCount_pos : 0 < context.primeCount := by
  rw [← length_moduli]
  exact List.length_pos_iff.mpr lawful.moduli_ne_nil

theorem primeCount_le : context.primeCount ≤ 3 := by
  rw [← length_moduli]
  exact lawful.selected_spec.1

theorem channel_present {index : Nat} {q : UInt64} (present : context.moduli[index]? = some q) :
    ∃ channel, context.transform.channels[index]? = some channel ∧ channel.modulus = q := by
  rw [← lawful.transform_spec.2.2, Transform.moduli, List.getElem?_map] at present
  exact Option.map_eq_some_iff.mp present

end Lawful

/-! ## Contexts of one ring -/

/-- Whether two contexts have the same dimension, plaintext modulus and moduli. -/
structure SameRing (left right : Context) : Prop where
  dimension : left.dimension = right.dimension
  plaintextModulus : left.plaintextModulus = right.plaintextModulus
  moduli : left.moduli = right.moduli

namespace SameRing

theorem refl (context : Context) : SameRing context context :=
  ⟨rfl, rfl, rfl⟩

variable {left right : Context} (same : SameRing left right)
include same

theorem symm : SameRing right left :=
  ⟨same.dimension.symm, same.plaintextModulus.symm, same.moduli.symm⟩

theorem primeCount : left.primeCount = right.primeCount := by
  rw [← Lawful.length_moduli, same.moduli, Lawful.length_moduli]

variable (leftLawful : left.Lawful) (rightLawful : right.Lawful)
include leftLawful rightLawful

theorem basis : left.basis = right.basis := by
  have found := leftLawful.basis
  rw [same.moduli, rightLawful.basis] at found
  exact (Option.some.inj found).symm

theorem transform : left.transform = right.transform := by
  have made := leftLawful.transform
  rw [same.moduli, same.dimension, rightLawful.transform] at made
  exact (Except.ok.inj made).symm

theorem descale : left.descale = right.descale := by
  funext residues
  simp only [Context.descale, same.plaintextModulus, same.basis leftLawful rightLawful]

theorem fingerprint : left.fingerprint = right.fingerprint := by
  rw [leftLawful.fingerprint, rightLawful.fingerprint, same.dimension, same.plaintextModulus,
    same.moduli]

end SameRing

theorem checkFingerprint_eq_ok_iff {context : Context} {fingerprint : UInt64} {done : Unit} :
    context.checkFingerprint fingerprint = .ok done ↔ fingerprint = context.fingerprint := by
  simp [checkFingerprint]

/-- Whether contexts of equal fingerprint are contexts of the same ring. -/
def Distinguished (contexts : List Context) : Prop :=
  ∀ left ∈ contexts, ∀ right ∈ contexts, left.fingerprint = right.fingerprint →
    SameRing left right

theorem distinguished_singleton (context : Context) : Distinguished [context] := by
  intro left leftMember right rightMember _
  rw [List.mem_singleton.mp leftMember, List.mem_singleton.mp rightMember]
  exact SameRing.refl context

end RingLwe.Context
