import RingLwe.Proofs.ResiduePoly
import RingLwe.Proofs.Wire.Formats

/-!
# Secret keys of a context

The secret keys of a context are those that were generated from a stream and
those that were loaded from bytes (`Reachable`).  Both domains of such a key
belong to the context, and each is the other one transformed
(`Reachable.belongs`).
-/

set_option autoImplicit false

namespace RingLwe.SecretKey

open ResiduePoly

/-- The secret keys that a context can have. -/
inductive Reachable (context : Context) : SecretKey → Prop
  | generated (stream : Stream) : Reachable context ((generate context).run stream).1
  | loaded {bytes : List UInt8} {key : SecretKey} :
    load context bytes = .ok key → Reachable context key

/-- What holds of a secret key of a context. -/
structure Belongs (context : Context) (key : SecretKey) : Prop where
  bound : key.context = context
  coefficients : key.coefficients.Belongs context .coefficient
  transformed : key.transformed = key.coefficients.toTransformed context.transform

/-! ## Reading -/

/-- The polynomial in the transformed domain that a written key of a context holds. -/
def written (context : Context) (bytes : List UInt8) : ResiduePoly :=
  ⟨Wire.wordsAt 24 (context.dimension * context.moduli.length) bytes, context.dimension,
    .transformed⟩

/-- A written key that is accepted has the format, and is loaded from its positions. -/
theorem load_eq_ok_iff {context : Context} {bytes : List UInt8} {key : SecretKey} :
    load context bytes = .ok key ↔
      Format context bytes ∧ ofTransformed context (written context bytes) = key := by
  unfold load
  split
  next words read =>
    obtain ⟨format, rfl⟩ := decode_eq_ok_iff.mp read
    simp only [Except.ok.injEq, format, true_and, written]
  next fault read =>
    constructor
    · intro impossible
      cases impossible
    · rintro ⟨format, _⟩
      rw [decode_eq_ok_iff.mpr ⟨format, rfl⟩] at read
      cases read

theorem belongs_written {context : Context} {bytes : List UInt8} (format : Format context bytes) :
    (written context bytes).Belongs context .transformed := by
  refine ⟨rfl, rfl, ?_, Wire.reduced_wordsAt_iff.mpr format.framed.reduced⟩
  rw [written, Wire.length_wordsAt, Context.Lawful.length_moduli]

theorem toBytes_eq (key : SecretKey) : key.toBytes = key.encode :=
  Wire.filled_storeObject _ _

/-! ## Construction -/

section Construction

variable {context : Context} (lawful : context.Lawful)
include lawful

omit lawful in
theorem belongs_ofCoefficients {poly : ResiduePoly} (belongs : poly.Belongs context .coefficient) :
    Belongs context (ofCoefficients context poly) :=
  ⟨rfl, belongs, rfl⟩

theorem belongs_ofTransformed {poly : ResiduePoly} (belongs : poly.Belongs context .transformed) :
    Belongs context (ofTransformed context poly) :=
  ⟨rfl, belongs_toCoefficient lawful belongs, (toTransformed_toCoefficient lawful belongs).symm⟩

theorem samples_spec (count : Nat) : Stream.Gives (context.gaussian.samples count) fun values =>
    values.length = count ∧ ∀ value ∈ values, value.natAbs ≤ context.gaussian.tailCut := by
  refine Gaussian.samples_spec ?_ count
  rw [Gaussian.tailCut_of_ofSigma? lawful.gaussian]
  exact Gaussian.tailCutOf_fits _

/-- Every secret key of a context belongs to it. -/
theorem Reachable.belongs {key : SecretKey} (reachable : Reachable context key) :
    Belongs context key := by
  cases reachable with
  | generated stream =>
    have made : Stream.Gives (generate context) (Belongs context) := by
      refine Stream.Gives.bind (samples_spec lawful context.dimension) ?_
      intro coefficients drawn
      exact Stream.Gives.pure (belongs_ofCoefficients (belongs_ofIntegers drawn.1 lawful))
    exact made stream
  | loaded accepted =>
    obtain ⟨format, rfl⟩ := load_eq_ok_iff.mp accepted
    exact belongs_ofTransformed lawful (belongs_written format)

theorem Belongs.belongs_transformed {key : SecretKey} (belongs : Belongs context key) :
    key.transformed.Belongs context .transformed := by
  rw [belongs.transformed]
  exact belongs_toTransformed lawful belongs.coefficients

end Construction

/-! ## Reading back -/

theorem length_toBytes (key : SecretKey) : key.toBytes.length = key.size := by
  simp only [toBytes_eq, encode, List.length_append, Wire.length_header, Wire.length_wordBytes,
    Bytes.ofWord64, Bytes.length_ofNat, size, Wire.objectLength, Wire.Kind.fieldLength]

/-- Every context of the same ring reads the residues of a key back. -/
theorem decode_toBytes {context other : Context} (lawful : context.Lawful)
    (otherLawful : other.Lawful) (same : Context.SameRing context other) {key : SecretKey}
    (belongs : key.Belongs context) : decode other key.toBytes = .ok key.transformed.residues := by
  have image := (belongs.belongs_transformed lawful).transfer same
  have short := Nat.lt_of_le_of_lt otherLawful.dimension_le (by decide : 32768 < 256 ^ 4)
  have few := Nat.lt_of_le_of_lt otherLawful.primeCount_le (by decide : 3 < 256 ^ 4)
  have word : other.fingerprint.toNat < 256 ^ 8 := other.fingerprint.toNat_lt
  have words := Wire.readWords_wordBytes key.transformed.residues []
  rw [List.append_nil, image.full] at words
  have reduced : Wire.checkReduced other.dimension 0 other.moduli key.transformed.residues =
      .ok () := (Wire.checkReduced_iff _ _ _ _).mpr image.reduced
  rw [toBytes_eq, encode, Bytes.ofWord64, belongs.bound, same.fingerprint lawful otherLawful,
    same.dimension, same.primeCount]
  simp only [List.append_assoc, decode, Wire.readHeader_header, Wire.readNumber_ofNat 8 word,
    Wire.readNumber_ofNat 4 short, Wire.readNumber_ofNat 4 few, Wire.ensure, beq_self_eq_true,
    Bool.and_self, if_true, words, reduced, ok_bind]
  rfl

/-- Every context of the same ring loads the bytes of a key as that key. -/
theorem load_toBytes {context other : Context} (lawful : context.Lawful)
    (otherLawful : other.Lawful) (same : Context.SameRing context other) {key : SecretKey}
    (belongs : key.Belongs context) :
    load other key.toBytes = .ok { key with context := other } := by
  have image := (belongs.belongs_transformed lawful).transfer same
  have back := ResiduePoly.toCoefficient_toTransformed lawful belongs.coefficients
  rw [← belongs.transformed, same.transform lawful otherLawful] at back
  have written : (⟨key.transformed.residues, other.dimension, .transformed⟩ : ResiduePoly) =
      key.transformed := by
    rw [← image.size, ← image.domain]
  rw [load, decode_toBytes lawful otherLawful same belongs]
  dsimp only
  rw [ofTransformed, written, back]

theorem tailCut_default {context : Context} (lawful : context.Lawful)
    (default : context.parameters.sigma = defaultSigma) : context.gaussian.tailCut = 20 := by
  have cut : Gaussian.tailCutOf defaultSigma = 20 := by decide +kernel
  rw [Gaussian.tailCut_of_ofSigma? lawful.gaussian, default]
  exact cut

theorem tailCut_preset {width : Width} {context : Context}
    (built : Context.ofParameters (Parameters.preset width) = .ok context) :
    context.gaussian.tailCut = 20 := by
  obtain ⟨lawful, same⟩ := Context.ofParameters_spec built
  refine tailCut_default lawful ?_
  rw [same]
  rfl

end RingLwe.SecretKey
