import RingLwe.Proofs.Session
import RingLwe.Proofs.Switching
import RingLwe.Proofs.Transform.Quotient

/-!
# The equation of encryption

The residues of a coefficient modulo the primes compose to one integer modulo
their product `q` (`ResiduePoly.integers`, `Ciphertext.integerAt`).  Modulo every
prime the product of a public polynomial with the secret, taken in the
transformed domain, has the residues of the product of these integers modulo
`X^n + 1` (`classOf_mulPublic_integers`).

These are the coefficients of the product in `Z_q[X] / (X^n + 1)`
(`integerProduct_spec`).

So whatever noise is drawn, the integer of each coefficient of a ciphertext is
that of the product plus the noise plus the scaled value, modulo `q`
(`integerAt_of_encrypts`), and two ciphertexts from one first phase differ by
the scaled values alone (`finalize_equation`).
-/

set_option autoImplicit false

namespace RingLwe

open Residue

/-! ## Integers modulo the product of the primes -/

/-- The integer from zero on below the product of the primes with the residues of a coefficient, in
residues of coefficients with the given stride. -/
def Context.integerAt (context : Context) (stride : Nat) (residues : List UInt64)
    (position : Nat) : Nat :=
  context.basis.compose (Switching.residuesAt context.primeCount stride residues position)

/-- The coefficients of a polynomial of a context modulo the product of the primes. -/
def ResiduePoly.integers (context : Context) (poly : ResiduePoly) : List Int :=
  (List.range context.dimension).map fun position =>
    (context.integerAt context.dimension poly.residues position : Int)

/-- A coefficient of a ciphertext modulo the product of the primes. -/
def Ciphertext.integerAt (ciphertext : Ciphertext) (position : Nat) : Nat :=
  ciphertext.context.integerAt ciphertext.count ciphertext.residues position

namespace Context.Lawful

variable {context : Context} (lawful : context.Lawful)
include lawful

theorem intCast_integerAt (stride : Nat) (residues : List UInt64) (position : Nat) {index : Nat}
    {q : UInt64} (present : context.moduli[index]? = some q) :
    ((context.integerAt stride residues position : Nat) : ZMod q.toNat) =
      classOf q (residues.getD (index * stride + position) 0) := by
  have full := Switching.length_residuesAt context.primeCount stride residues position
  have composed := lawful.basis_sound.compose_modEq_getD full present
  rw [Switching.getD_residuesAt stride residues position (index_lt present)] at composed
  exact (ZMod.natCast_eq_natCast_iff _ _ _).mpr composed

/-- The integer of a coefficient is the remainder of every integer of its classes. -/
theorem integerAt_eq_emod {stride : Nat} {residues : List UInt64} {position : Nat} {number : Int}
    (same : ∀ index q, context.moduli[index]? = some q →
      classOf q (residues.getD (index * stride + position) 0) = (number : ZMod q.toNat)) :
    (context.integerAt stride residues position : Int) = number % context.basis.modulus := by
  have full := Switching.length_residuesAt context.primeCount stride residues position
  have below := lawful.basis_sound.compose_lt
    (Switching.residuesAt context.primeCount stride residues position)
  have congruent : (context.integerAt stride residues position : Int) ≡ number
      [ZMOD context.basis.modulus] := by
    apply lawful.basis_sound.compose_modEq_of_classes full
    intro index q present
    rw [Switching.getD_residuesAt stride residues position (index_lt present)]
    exact same index q present
  rw [← congruent.eq]
  exact (Int.emod_eq_of_lt (Int.natCast_nonneg _) (Int.ofNat_lt.mpr below)).symm

/-- The integers of a polynomial have its classes modulo every prime. -/
theorem map_integers (poly : ResiduePoly) {index : Nat} {q : UInt64}
    (present : context.moduli[index]? = some q)
    (full : poly.residues.length = context.dimension * context.primeCount) :
    (poly.integers context).map (Int.castRingHom (ZMod q.toNat)) =
      classesAt q context.dimension poly.residues index := by
  have long : (classesAt q context.dimension poly.residues index).length = context.dimension := by
    rw [classesAt, List.length_map, length_run full (index_lt present)]
  conv_rhs => rw [Negacyclic.eq_map_getD (classesAt q context.dimension poly.residues index) 0, long]
  rw [ResiduePoly.integers, List.map_map]
  refine List.map_congr_left ?_
  intro position member
  rw [Function.comp_apply, getD_classesAt q _ index (List.mem_range.mp member), eq_intCast,
    Int.cast_natCast, lawful.intCast_integerAt _ _ _ present]

end Context.Lawful

theorem ResiduePoly.length_integers (context : Context) (poly : ResiduePoly) :
    (poly.integers context).length = context.dimension := by
  rw [integers, List.length_map, List.length_range]

/-! ## The coefficients of a ciphertext -/

namespace SecretKey

variable {context : Context} (lawful : context.Lawful) {key : SecretKey}
  (keyBelongs : key.Belongs context) {a : PublicPoly} {poly : ResiduePoly}
  (belongs : poly.Belongs context .coefficient)
  (made : a.poly = poly.toTransformed context.transform)
include lawful keyBelongs belongs made

/-- The product of a public polynomial with the secret has the classes of the product of their
integers modulo `X^n + 1`. -/
theorem classOf_mulPublic_integers {index position : Nat} {q : UInt64}
    (present : context.moduli[index]? = some q) (inside : position < context.dimension) :
    classOf q ((key.mulPublic a).residues.getD (index * context.dimension + position) 0) =
      ((Negacyclic.productAt context.dimension (poly.integers context)
        (key.coefficients.integers context) position : Int) : ZMod q.toNat) := by
  rw [classOf_mulPublic lawful keyBelongs belongs made present inside, ← eq_intCast
    (Int.castRingHom (ZMod q.toNat)), ← Negacyclic.productAt_map,
    lawful.map_integers poly present belongs.full,
    lawful.map_integers key.coefficients present keyBelongs.coefficients.full]
  refine Finset.sum_congr rfl ?_
  intro column member
  rw [getD_classesAt q _ index (Finset.mem_range.mp member)]

/-- The integer of each coefficient of a ciphertext is that of the product, the noise and the scaled
value, whatever the noise is. -/
theorem integerAt_of_encrypts {noise : List Int} {values : List UInt64} {ciphertext : Ciphertext}
    (cipherBelongs : ciphertext.Belongs context)
    (encrypts : Encrypts key a noise values ciphertext) {position : Nat}
    (inside : position < ciphertext.count) :
    (ciphertext.integerAt position : Int) =
      (Negacyclic.productAt context.dimension (poly.integers context)
          (key.coefficients.integers context) position + noise.getD position 0 +
        context.scaled (values.getD position 0 % context.plaintextModulus).toNat) %
        context.basis.modulus := by
  rw [Ciphertext.integerAt, cipherBelongs.bound]
  apply lawful.integerAt_eq_emod
  intro index q present
  have wide : position < context.dimension := Nat.lt_of_lt_of_le inside cipherBelongs.count
  have encrypted := encrypts index q position (by rw [keyBelongs.bound]; exact present) inside
  rw [keyBelongs.bound] at encrypted
  rw [encrypted, classOf_mulPublic_integers lawful keyBelongs belongs made present wide]
  push_cast
  rfl

end SecretKey

/-! ## Both phases -/

theorem Plaintext.WellFormed.padded_values {plaintext : Plaintext}
    (wellFormed : plaintext.WellFormed) :
    Plaintext.padded plaintext.context plaintext.values = plaintext.values := by
  rw [Plaintext.padded, wellFormed.length, Nat.sub_self, List.replicate_zero, List.append_nil]
  refine (List.map_congr_left fun value member => ?_).trans (List.map_id _)
  exact UInt64.mod_eq_of_lt (wellFormed.reduced value member)

namespace SecretKey

/-- The product of a public polynomial with the secret modulo `X^n + 1`, of the integers of their
coefficients. -/
def integerProduct (key : SecretKey) (a : PublicPoly) : List Int :=
  Negacyclic.product key.context.dimension (a.coefficients.integers key.context)
    (key.coefficients.integers key.context)

/-- Finalizing a plaintext gives a ciphertext of all coefficients that encrypts its values. -/
theorem finalize_spec {context : Context} (lawful : context.Lawful) {key : SecretKey}
    (keyBelongs : key.Belongs context) {a : PublicPoly}
    (publicBelongs : a.poly.Belongs context .transformed) {noise : List Int}
    (many : noise.length = context.dimension) {plaintext : Plaintext}
    (bound : plaintext.context = context) (wellFormed : plaintext.WellFormed) :
    ∃ ciphertext, key.finalize plaintext (key.preprocessWith a noise) = .ok ciphertext ∧
      ciphertext.Belongs context ∧ ciphertext.count = context.dimension ∧
      Encrypts key a noise plaintext.values ciphertext := by
  subst bound
  have fits : plaintext.values.length ≤ plaintext.context.dimension := wellFormed.length.le
  have finalized : key.finalize ⟨plaintext.context,
      Plaintext.padded plaintext.context plaintext.values, plaintext.length⟩
      (key.preprocessWith a noise) = .ok (Ciphertext.ofPoly plaintext.context
        (addScaled plaintext.context (key.preprocessWith a noise).poly
          (Plaintext.padded plaintext.context plaintext.values))) :=
    finalize_eq_ok keyBelongs plaintext.length
  obtain ⟨belongs, encrypts⟩ := encrypts_finalize lawful keyBelongs publicBelongs many fits
  rw [wellFormed.padded_values] at finalized belongs encrypts
  exact ⟨_, finalized, belongs, (belongs_preprocessWith lawful keyBelongs publicBelongs many).size,
    encrypts⟩

section Equation

variable {parameters : Parameters} {context : Context}
  (built : Context.ofParameters parameters = .ok context) {key : SecretKey}
  (own : key.Reachable context) {a : PublicPoly}
include built own

/-- The second phase on a plaintext, whatever the noise of the first is. -/
theorem integerAt_finalize (published : a.Reachable context) {noise : List Int}
    (many : noise.length = context.dimension) {plaintext : Plaintext}
    (bound : plaintext.context = context) (wellFormed : plaintext.WellFormed) :
    ∃ ciphertext, key.finalize plaintext (key.preprocessWith a noise) = .ok ciphertext ∧
      ciphertext.count = context.dimension ∧
      ∀ position < context.dimension, (ciphertext.integerAt position : Int) =
        ((key.integerProduct a).getD position 0 + noise.getD position 0 +
          context.scaled (plaintext.values.getD position 0).toNat) % context.basis.modulus := by
  have lawful := Context.lawful_of_ofParameters built
  have keyBelongs := own.belongs lawful
  obtain ⟨coefficients, made⟩ := published.coefficients_spec lawful
  obtain ⟨ciphertext, finalized, belongs, wide, encrypts⟩ := finalize_spec lawful keyBelongs
    (published.belongs lawful).2 many bound wellFormed
  refine ⟨ciphertext, finalized, wide, ?_⟩
  intro position inside
  have reduced := getD_padded plaintext.context plaintext.values (by rw [bound]; exact inside)
  rw [wellFormed.padded_values, bound] at reduced
  rw [integerAt_of_encrypts lawful keyBelongs coefficients made belongs encrypts
    (by rw [wide]; exact inside), ← reduced, integerProduct, keyBelongs.bound,
    Negacyclic.getD_product _ _ inside]

/-- The items of the product are the coefficients of the product in `Z_q[X] / (X^n + 1)`. -/
theorem integerProduct_spec {coefficients : List Int}
    (full : coefficients.length = context.dimension) :
    Negacyclic.element context.basis.modulus context.dimension coefficients =
        Negacyclic.element context.basis.modulus context.dimension
            (a.coefficients.integers context) *
          Negacyclic.element context.basis.modulus context.dimension
            (key.coefficients.integers context) ↔
      ∀ position < context.dimension, coefficients.getD position 0 ≡
        (key.integerProduct a).getD position 0 [ZMOD context.basis.modulus] := by
  have lawful := Context.lawful_of_ofParameters built
  rw [integerProduct, (own.belongs lawful).bound]
  exact Negacyclic.element_eq_mul_iff lawful.one_lt_modulus (ResiduePoly.length_integers _ _)
    (ResiduePoly.length_integers _ _) full

end Equation

/-- The equation of encryption.  The first phase draws as many noise values as the ring has
coefficients.  With any such noise the second phase succeeds on every plaintext, and each
coefficient of its ciphertext is the integer of the product, the noise and the scaled value modulo
the product of the primes; so ciphertexts of two plaintexts on one first phase differ by the scaled
values. -/
theorem finalize_equation {parameters : Parameters} {context : Context}
    (built : Context.ofParameters parameters = .ok context) {key : SecretKey}
    (own : key.Reachable context) {a : PublicPoly} (published : a.Reachable context)
    (untransposed : a.transposed = false) :
    (∃ draw, key.preprocess a = .ok draw ∧ ∀ stream,
      ∃ noise, noise = ((context.gaussian.samples context.dimension).run stream).1 ∧
        noise.length = context.dimension ∧ (draw.run stream).1 = key.preprocessWith a noise) ∧
    (∀ coefficients : List Int, coefficients.length = context.dimension →
      (Negacyclic.element context.basis.modulus context.dimension coefficients =
          Negacyclic.element context.basis.modulus context.dimension
              (a.coefficients.integers context) *
            Negacyclic.element context.basis.modulus context.dimension
              (key.coefficients.integers context) ↔
        ∀ position < context.dimension, coefficients.getD position 0 ≡
          (key.integerProduct a).getD position 0 [ZMOD context.basis.modulus])) ∧
    ∀ noise, noise.length = context.dimension →
      (∀ plaintext, plaintext.context = context → plaintext.WellFormed →
        ∃ ciphertext, key.finalize plaintext (key.preprocessWith a noise) = .ok ciphertext ∧
          ciphertext.count = context.dimension ∧
          ∀ position < context.dimension, (ciphertext.integerAt position : Int) =
            ((key.integerProduct a).getD position 0 + noise.getD position 0 +
              context.scaled (plaintext.values.getD position 0).toNat) % context.basis.modulus) ∧
      ∀ first second, first.context = context → first.WellFormed →
        second.context = context → second.WellFormed →
        ∃ left right, key.finalize first (key.preprocessWith a noise) = .ok left ∧
          key.finalize second (key.preprocessWith a noise) = .ok right ∧
          ∀ position < context.dimension,
            (left.integerAt position : Int) - right.integerAt position ≡
              context.scaled (first.values.getD position 0).toNat -
                context.scaled (second.values.getD position 0).toNat
              [ZMOD context.basis.modulus] := by
  refine ⟨?_, fun coefficients full => integerProduct_spec built own full,
    fun noise many => ⟨fun plaintext bound wellFormed =>
      integerAt_finalize built own published many bound wellFormed, ?_⟩⟩
  · have lawful := Context.lawful_of_ofParameters built
    obtain ⟨sameContext, _⟩ := published.belongs lawful
    obtain ⟨draw, accepted, drawn⟩ :=
      preprocess_spec lawful (own.belongs lawful) (by rw [sameContext]) untransposed
    refine ⟨draw, accepted, ?_⟩
    intro stream
    obtain ⟨noise, rest, sampled, drawnMany, _, given⟩ := drawn stream
    exact ⟨noise, by rw [sampled], drawnMany, by rw [given]⟩
  · intro first second firstBound firstFormed secondBound secondFormed
    obtain ⟨left, leftFinalized, _, leftSpec⟩ :=
      integerAt_finalize built own published many firstBound firstFormed
    obtain ⟨right, rightFinalized, _, rightSpec⟩ :=
      integerAt_finalize built own published many secondBound secondFormed
    refine ⟨left, right, leftFinalized, rightFinalized, ?_⟩
    intro position inside
    rw [leftSpec position inside, rightSpec position inside]
    refine ((Int.mod_modEq _ _).sub (Int.mod_modEq _ _)).trans ?_
    rw [add_sub_add_left_eq_sub]

/-- On one first phase of the preset of 32 bits with noise at the constant coefficient, ciphertexts
of the values three and one differ by two scaled units. -/
theorem finalize_equation_preset : ∃ context key a,
    Context.ofParameters (Parameters.preset .bits32) = .ok context ∧
    Reachable context key ∧ a.Reachable context ∧ a.transposed = false ∧
    ∃ first second left right,
      Plaintext.ofValues context [3] = .ok first ∧ Plaintext.ofValues context [1] = .ok second ∧
      key.finalize first (key.preprocessWith a (-7 :: List.replicate 2047 0)) = .ok left ∧
      key.finalize second (key.preprocessWith a (-7 :: List.replicate 2047 0)) = .ok right ∧
      (left.integerAt 0 : Int) - right.integerAt 0 ≡ 134217280 [ZMOD 8589905921] := by
  obtain ⟨context, built⟩ := Context.exists_preset .bits32
  obtain ⟨dimension, plaintext, _, modulus⟩ := Context.preset_spec built
  have lawful := Context.lawful_of_ofParameters built
  have own : Reachable context ((generate context).run ⟨Vector.replicate 8 0, 0, []⟩).1 :=
    .generated _
  have published : PublicPoly.Reachable context (PublicPoly.derive context (Vector.replicate 8 0)) :=
    .derive _
  have fits : ∀ value : UInt64, ¬context.dimension < [value].length := by
    intro value
    rw [dimension, List.length_singleton]
    decide
  have formed : ∀ value : UInt64, (⟨context, Plaintext.padded context [value], 1⟩ :
      Plaintext).WellFormed := fun value =>
    Plaintext.wellFormed_padded lawful (Nat.not_lt.mp (fits value)) 1
  obtain ⟨left, right, leftFinalized, rightFinalized, differ⟩ :=
    ((finalize_equation built own published rfl).2.2 (-7 :: List.replicate 2047 0)
      (by rw [dimension, List.length_cons, List.length_replicate])).2
      ⟨context, Plaintext.padded context [3], 1⟩ ⟨context, Plaintext.padded context [1], 1⟩
      rfl (formed 3) rfl (formed 1)
  have constant := differ 0 (by rw [dimension]; decide)
  refine ⟨context, _, _, built, own, published, rfl, _, _, left, right, if_neg (fits 3),
    if_neg (fits 1), leftFinalized, rightFinalized, ?_⟩
  rw [getD_padded context _ (by rw [dimension]; decide),
    getD_padded context _ (by rw [dimension]; decide), Context.scaled, Context.scaled, plaintext,
    modulus] at constant
  exact constant

end SecretKey

end RingLwe
