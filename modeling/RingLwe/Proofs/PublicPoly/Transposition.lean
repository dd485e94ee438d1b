import RingLwe.Proofs.Encryption
import RingLwe.Proofs.PublicPoly.InPlace
import RingLwe.Proofs.ResiduePoly.Ring

/-!
# Repeated transposition

Reading coefficients backwards and negating them twice gives the words back, not
only their classes, since they are reduced (`transposeRun_transposeRun`).  The
two transforms on the way lose nothing, so transposing a public polynomial twice
gives the stored words back (`transpose_transpose`).  A public polynomial that is
transposed any number of times is therefore itself or its transpose, by the
parity of the number (`iterate_transpose`).

The matrix of the transpose of a derived polynomial is the transposed matrix
modulo every prime, its flag tells the parity, and encryption and decryption
refuse it exactly when the number is odd (`iterate_transpose_of_derived`).
-/

set_option autoImplicit false

namespace RingLwe

open Residue

theorem ResiduePoly.Belongs.shaped {context : Context} {domain : Domain} {poly : ResiduePoly}
    (belongs : poly.Belongs context domain) :
    poly.Shaped context.dimension context.moduli domain where
  size := belongs.size
  domain := belongs.domain
  full := full_moduli belongs
  reduced := belongs.reduced

namespace PublicPoly

open ResiduePoly

/-! ## Twice -/

/-- Transposing reduced coefficients twice gives them back. -/
theorem transposeRun_transposeRun {q : UInt64} {words : List UInt64}
    (reduced : ∀ word ∈ words, word < q) : transposeRun q (transposeRun q words) = words := by
  cases words with
  | nil => rfl
  | cons constant others =>
    have twice : others.map ((neg · q) ∘ (neg · q)) = others := by
      refine (List.map_congr_left ?_).trans (List.map_id others)
      intro word member
      exact neg_neg_of_lt (reduced word (List.mem_cons_of_mem _ member))
    rw [transposeRun, transposeRun, ← List.map_reverse, List.reverse_reverse, List.map_map, twice]

section Transpose

variable {context : Context} {poly : ResiduePoly}

/-- Transposing a polynomial of a context twice gives it back. -/
theorem transposeCoefficients_transposeCoefficients (belongs : Belongs context .coefficient poly) :
    transposeCoefficients context.moduli (transposeCoefficients context.moduli poly) = poly := by
  have once := belongs_transposeCoefficients belongs
  have twice := belongs_transposeCoefficients once
  have residues : (transposeCoefficients context.moduli
      (transposeCoefficients context.moduli poly)).residues = poly.residues := by
    apply eq_of_run_eq (full_moduli twice) (full_moduli belongs)
    intro index inside
    have present : context.moduli[index]? = some context.moduli[index] :=
      List.getElem?_eq_getElem inside
    rw [run_transposeCoefficients once present, run_transposeCoefficients belongs present]
    exact transposeRun_transposeRun (belongs.reduced index _ present)
  exact congrArg (fun words => { poly with residues := words }) residues

end Transpose

section Reachable

variable {context : Context} (lawful : context.Lawful) {a : PublicPoly}
  (reachable : a.Reachable context)
include lawful reachable

/-- Transposing a public polynomial twice gives it back. -/
theorem Reachable.transpose_transpose : a.transpose.transpose = a := by
  obtain ⟨rfl, _⟩ := reachable.belongs lawful
  obtain ⟨coefficients, transformed⟩ := reachable.coefficients_spec lawful
  have back : (transposeCoefficients a.context.moduli a.transpose.coefficients).toTransformed
      a.context.transform = a.poly := by
    rw [reachable.coefficients_transpose lawful,
      transposeCoefficients_transposeCoefficients coefficients, ← transformed]
  calc a.transpose.transpose
      = ⟨a.context, (transposeCoefficients a.context.moduli a.transpose.coefficients).toTransformed
          a.context.transform, !(!a.transposed)⟩ := rfl
    _ = a := by rw [back, Bool.not_not]

/-- A public polynomial that is transposed a number of times is itself or its transpose, by the
parity of the number. -/
theorem Reachable.iterate_transpose (times : Nat) :
    PublicPoly.transpose^[times] a = if Even times then a else a.transpose := by
  have periodic : Function.IsPeriodicPt PublicPoly.transpose 2 a :=
    reachable.transpose_transpose lawful
  rw [← periodic.iterate_mod_apply times]
  rcases Nat.even_or_odd times with even | odd
  · rw [if_pos even, Nat.even_iff.mp even, Function.iterate_zero_apply]
  · rw [if_neg (Nat.not_even_iff_odd.mpr odd), Nat.odd_iff.mp odd, Function.iterate_one]

/-- The flag of a transposed polynomial tells the parity of the number of transpositions. -/
theorem Reachable.transposed_iterate (untransposed : a.transposed = false) (times : Nat) :
    (PublicPoly.transpose^[times] a).transposed = true ↔ Odd times := by
  rw [reachable.iterate_transpose lawful]
  by_cases even : Even times
  · rw [if_pos even, untransposed, ← Nat.not_even_iff_odd]
    exact ⟨fun impossible => (nomatch impossible), fun odd => absurd even odd⟩
  · rw [if_neg even, PublicPoly.transpose, untransposed, ← Nat.not_even_iff_odd]
    exact ⟨fun _ => even, fun _ => rfl⟩

omit lawful in
theorem Reachable.iterate (times : Nat) : (PublicPoly.transpose^[times] a).Reachable context :=
  Function.Iterate.rec (Reachable context) reachable (fun _ => Reachable.transpose) times

end Reachable

/-! ## Matrices -/

/-- The integers of the matrix of multiplication by a public polynomial modulo the prime of the
given number. -/
def matrixEntry (a : PublicPoly) (index row column : Nat) : Int :=
  Negacyclic.entry a.context.dimension (a.coefficients.integersAt index) row column

/-- The matrix of the transpose of a public polynomial is the transposed matrix, modulo every
prime. -/
theorem Reachable.matrixEntry_transpose {context : Context} (lawful : context.Lawful)
    {a : PublicPoly} (reachable : a.Reachable context) {index : Nat} {q : UInt64}
    (present : context.moduli[index]? = some q) {row column : Nat}
    (rowInside : row < context.dimension) (columnInside : column < context.dimension) :
    a.transpose.matrixEntry index row column ≡ a.matrixEntry index column row [ZMOD q.toNat] := by
  obtain ⟨rfl, _⟩ := reachable.belongs lawful
  obtain ⟨coefficients, _⟩ := reachable.coefficients_spec lawful
  have transposed := belongs_transposeCoefficients coefficients
  have entries := entry_transposeCoefficients coefficients present rowInside columnInside
  rw [coefficients.shaped.classesAt_eq, transposed.shaped.classesAt_eq, Negacyclic.entry_map,
    Negacyclic.entry_map] at entries
  apply (ZMod.intCast_eq_intCast_iff _ _ _).mp
  rw [matrixEntry, matrixEntry, reachable.coefficients_transpose lawful]
  exact entries

end PublicPoly

/-! ## Refusal -/

namespace SecretKey

variable {key : SecretKey} {a : PublicPoly}
  (sameRing : key.context.fingerprint = a.context.fingerprint)
include sameRing

/-- What runs behind the check is refused for a transposed polynomial, and for no other unless it
refuses one itself. -/
theorem bind_checkPublic_eq_transposed_iff {α : Type} {rest : Unit → Except Failure α}
    (never : rest () ≠ .error .transposed) :
    key.checkPublic a >>= rest = .error .transposed ↔ a.transposed = true := by
  rw [checkPublic_eq sameRing]
  cases a.transposed with
  | false => exact ⟨fun refused => absurd refused never, fun impossible => nomatch impossible⟩
  | true => exact ⟨fun _ => rfl, fun _ => rfl⟩

theorem preprocess_eq_transposed_iff :
    key.preprocess a = .error .transposed ↔ a.transposed = true :=
  bind_checkPublic_eq_transposed_iff sameRing fun impossible => nomatch impossible

/-- Decryption refuses the transposed polynomials of the ring as transposed. -/
theorem decrypt_eq_transposed_iff (ciphertext : Ciphertext) :
    key.decrypt a ciphertext = .error .transposed ↔ a.transposed = true := by
  apply bind_checkPublic_eq_transposed_iff sameRing
  intro refused
  rw [Context.checkFingerprint] at refused
  split at refused
  next => cases refused
  next => cases refused

/-- Whether a key takes a public polynomial, for encryption and for decryption of every ciphertext
of the ring. -/
def Takes (key : SecretKey) (a : PublicPoly) : Prop :=
  (∃ draw, key.preprocess a = .ok draw) ∧
    ∀ ciphertext : Ciphertext, ciphertext.context.fingerprint = key.context.fingerprint →
      ∃ values, key.decrypt a ciphertext = .ok values

/-- A key takes every polynomial of the ring that has not been transposed. -/
theorem takes_of_untransposed (untransposed : a.transposed = false) : key.Takes a := by
  have accepted : key.checkPublic a = .ok () := by
    rw [checkPublic_eq sameRing, untransposed]
    rfl
  refine ⟨⟨_, by rw [preprocess, accepted, ok_bind]; rfl⟩, ?_⟩
  intro ciphertext own
  refine ⟨(key.phases a ciphertext).map key.context.descale, ?_⟩
  rw [decrypt, accepted, ok_bind, Context.checkFingerprint, if_pos own, ok_bind]
  rfl

end SecretKey

namespace PublicPoly

/-- The matrix of the transpose of a derived public polynomial is the transposed matrix modulo every
prime.  Transposed any number of times, the polynomial holds its own words again if the number is
even and those of its transpose if it is odd, its flag says which, and the keys of the ring refuse
it as transposed exactly when the number is odd.  Each time the exchanges in place give the
transpose. -/
theorem iterate_transpose_of_derived {parameters : Parameters} {context : Context}
    (built : Context.ofParameters parameters = .ok context) (seed : Seed) :
    (∀ index q, context.moduli[index]? = some q →
      ∀ row < context.dimension, ∀ column < context.dimension,
        (derive context seed).transpose.matrixEntry index row column ≡
          (derive context seed).matrixEntry index column row [ZMOD q.toNat]) ∧
    ∀ times a, transpose^[times] (derive context seed) = a →
      a.transposeInPlace? = some a.transpose ∧
      (Even times → a.poly = (derive context seed).poly) ∧
      (Odd times → a.poly = (derive context seed).transpose.poly) ∧
      (a.transposed = true ↔ Odd times) ∧
      ∀ key : SecretKey, key.context.fingerprint = context.fingerprint →
        (key.preprocess a = .error .transposed ↔ Odd times) ∧
        (∀ ciphertext, key.decrypt a ciphertext = .error .transposed ↔ Odd times) ∧
        (Even times → key.Takes a) := by
  have lawful := Context.lawful_of_ofParameters built
  have derived : Reachable context (derive context seed) := .derive seed
  constructor
  · intro index q present row rowInside column columnInside
    exact derived.matrixEntry_transpose lawful present rowInside columnInside
  · rintro times a rfl
    have whole := derived.iterate_transpose lawful times
    have flag := derived.transposed_iterate lawful rfl times
    obtain ⟨bound, belongs⟩ := (derived.iterate times).belongs lawful
    refine ⟨transposeInPlace?_eq lawful bound belongs, ?_, ?_, flag, ?_⟩
    · intro even
      rw [whole, if_pos even]
    · intro odd
      rw [whole, if_neg (Nat.not_even_iff_odd.mpr odd)]
    · intro key own
      rw [← bound] at own
      refine ⟨(SecretKey.preprocess_eq_transposed_iff own).trans flag, ?_, ?_⟩
      · intro ciphertext
        exact (SecretKey.decrypt_eq_transposed_iff own ciphertext).trans flag
      · intro even
        apply SecretKey.takes_of_untransposed own
        exact Bool.eq_false_of_not_eq_true fun odd => Nat.not_odd_iff_even.mpr even (flag.mp odd)

/-- A public polynomial of the preset of 32 bits, transposed once, three and four times. -/
theorem iterate_transpose_preset : ∃ context key a,
    Context.ofParameters (Parameters.preset .bits32) = .ok context ∧
    SecretKey.Reachable context key ∧ derive context (Vector.replicate 8 7) = a ∧
    a.transpose.matrixEntry 0 5 2047 ≡ a.matrixEntry 0 2047 5 [ZMOD 8589905921] ∧
    (transpose^[3] a).transposeInPlace? = some (transpose^[4] a) ∧
    (transpose^[3] a).poly = a.transpose.poly ∧
    key.preprocess (transpose^[3] a) = .error .transposed ∧
    (transpose^[4] a).poly = a.poly ∧ key.Takes (transpose^[4] a) := by
  obtain ⟨context, built⟩ := Context.exists_preset .bits32
  have own : SecretKey.Reachable context
      ((SecretKey.generate context).run ⟨Vector.replicate 8 0, 0, []⟩).1 := .generated _
  have bound := (own.belongs (Context.lawful_of_ofParameters built)).bound
  obtain ⟨matrix, repeated⟩ := iterate_transpose_of_derived built (Vector.replicate 8 7)
  obtain ⟨exchanged, _, thrice, _, refusal⟩ := repeated 3 _ rfl
  obtain ⟨_, fourTimes, _, _, acceptance⟩ := repeated 4 _ rfl
  refine ⟨context, _, _, built, own, rfl, ?_, exchanged, thrice (by decide), ?_,
    fourTimes (by decide), ?_⟩
  · refine matrix 0 8589905921 ?_ 5 ?_ 2047 ?_
    · rw [Context.moduli_preset built]
      rfl
    · rw [(Context.preset_spec built).1]
      decide
    · rw [(Context.preset_spec built).1]
      decide
  · exact (refusal _ (congrArg Context.fingerprint bound)).1.mpr (by decide)
  · exact (acceptance _ (congrArg Context.fingerprint bound)).2.2 (by decide)

end PublicPoly

end RingLwe
