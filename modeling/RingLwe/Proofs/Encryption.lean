import RingLwe.Encryption
import RingLwe.Proofs.Ciphertext
import RingLwe.Proofs.Context.Presets
import RingLwe.Proofs.PublicPoly
import RingLwe.Proofs.Scaling
import RingLwe.Proofs.SecretKey

/-!
# Encryption and decryption

A ciphertext of a context (`Ciphertext.Belongs`) encrypts values with noise
when each of its residues is that of `a · s`, the noise and the scaled value
(`Encrypts`).  Finalizing a partial ciphertext gives one (`encrypts_finalize`),
and truncation keeps it one (`encrypts_truncate`).

Decryption takes `a · s` off again, so what is left to descale is the scaled
value with its noise (`decrypt_of_encrypts`).  Values come back wherever the
noise is within its budget (`decrypt_preprocessed`).
-/

set_option autoImplicit false

namespace RingLwe

open Residue

namespace SecretKey

open ResiduePoly

/-! ## The first phase -/

section Product

variable {context : Context} (lawful : context.Lawful) {key : SecretKey}
  (keyBelongs : key.Belongs context) {a : PublicPoly}
  (publicBelongs : a.poly.Belongs context .transformed)
include lawful keyBelongs publicBelongs

theorem belongs_mulPublic : (key.mulPublic a).Belongs context .coefficient := by
  rw [mulPublic, keyBelongs.bound]
  exact belongs_toCoefficient lawful
    (belongs_mul lawful publicBelongs (keyBelongs.belongs_transformed lawful))

omit publicBelongs in
/-- The product has the classes of the product of the coefficients modulo `X^n + 1`. -/
theorem classOf_mulPublic {poly : ResiduePoly} (belongs : poly.Belongs context .coefficient)
    (made : a.poly = poly.toTransformed context.transform) {index position : Nat} {q : UInt64}
    (present : context.moduli[index]? = some q) (inside : position < context.dimension) :
    classOf q ((key.mulPublic a).residues.getD (index * context.dimension + position) 0) =
      ∑ column ∈ Finset.range context.dimension,
        Negacyclic.entry context.dimension
            (classesAt q context.dimension poly.residues index) position column *
          classOf q (key.coefficients.residues.getD (index * context.dimension + column) 0) := by
  obtain ⟨sound, size, moduli⟩ := lawful.transform_spec
  have product : (key.mulPublic a).residues = context.transform.inverse
      (context.transform.pointwise (context.transform.forward poly.residues)
        (context.transform.forward key.coefficients.residues)) := by
    rw [mulPublic, keyBelongs.bound, made, keyBelongs.transformed, toTransformed, toTransformed,
      belongs.domain, keyBelongs.coefficients.domain]
    rfl
  have channel : context.transform.moduli[index]? = some q := by
    rw [moduli]
    exact present
  have classes := sound.classes_inverse_pointwise (lawful.full_buffer belongs.full)
    (lawful.full_buffer keyBelongs.coefficients.full) channel
  rw [size] at classes
  rw [product, ← getD_classesAt _ _ index inside, classes, Negacyclic.getD_product _ _ inside]
  refine Finset.sum_congr rfl ?_
  intro column member
  rw [getD_classesAt _ _ index (Finset.mem_range.mp member)]

variable {noise : List Int} (many : noise.length = context.dimension)
include many

theorem belongs_preprocessWith :
    (key.preprocessWith a noise).poly.Belongs context .coefficient := by
  rw [preprocessWith, keyBelongs.bound]
  exact belongs_add lawful (belongs_mulPublic lawful keyBelongs publicBelongs)
    (belongs_ofIntegers many lawful)

/-- The first phase adds the noise to the product. -/
theorem classOf_preprocessWith {index position : Nat} {q : UInt64}
    (present : context.moduli[index]? = some q) (inside : position < context.dimension) :
    classOf q ((key.preprocessWith a noise).poly.residues.getD
        (index * context.dimension + position) 0) =
      classOf q ((key.mulPublic a).residues.getD (index * context.dimension + position) 0) +
        ((noise.getD position 0 : Int) : ZMod q.toNat) := by
  rw [preprocessWith, keyBelongs.bound,
    classOf_add_at lawful (belongs_mulPublic lawful keyBelongs publicBelongs)
      (belongs_ofIntegers many lawful) present inside,
    classOf_ofIntegers_at many lawful present inside]

end Product

theorem checkPublic_eq {key : SecretKey} {a : PublicPoly}
    (sameRing : key.context.fingerprint = a.context.fingerprint) :
    key.checkPublic a = if a.transposed then .error .transposed else .ok () := by
  rw [checkPublic, Context.checkFingerprint, if_pos sameRing.symm, ok_bind]

/-- The first phase on a public polynomial of the ring draws noise for every coefficient. -/
theorem preprocess_spec {context : Context} (lawful : context.Lawful) {key : SecretKey}
    (keyBelongs : key.Belongs context) {a : PublicPoly}
    (sameRing : a.context.fingerprint = context.fingerprint) (untransposed : a.transposed = false) :
    ∃ draw, key.preprocess a = .ok draw ∧ ∀ stream, ∃ noise rest,
      (context.gaussian.samples context.dimension).run stream = (noise, rest) ∧
        noise.length = context.dimension ∧
        (∀ value ∈ noise, value.natAbs ≤ context.gaussian.tailCut) ∧
        draw.run stream = (key.preprocessWith a noise, rest) := by
  have accepted : key.checkPublic a = .ok () := by
    rw [checkPublic_eq (by rw [keyBelongs.bound, sameRing]), untransposed]
    rfl
  refine ⟨_, by rw [preprocess, accepted, ok_bind]; rfl, fun stream => ⟨_, _, rfl, ?_, ?_, ?_⟩⟩
  · exact (samples_spec lawful context.dimension stream).1
  · exact (samples_spec lawful context.dimension stream).2
  · rw [← keyBelongs.bound]
    rfl

/-! ## The second phase -/

section Scaled

variable {context : Context} (lawful : context.Lawful) {poly : ResiduePoly}
  (belongs : poly.Belongs context .coefficient) {values : List UInt64}
  (many : values.length = context.dimension)
include belongs many

theorem length_of_addScaledRun {words : List UInt64}
    (member : words ∈ components context.dimension context.primeCount poly.residues)
    (q delta : UInt64) : (addScaledRun context values q delta words).length = context.dimension := by
  rw [addScaledRun, List.length_zipWith, length_of_mem_components belongs.full member, many,
    Nat.min_self]

theorem run_addScaled {index : Nat} {q delta : UInt64} (present : context.moduli[index]? = some q)
    (beside : context.delta[index]? = some delta) :
    run context.dimension (addScaled context poly values).residues index =
      addScaledRun context values q delta (run context.dimension poly.residues index) := by
  have pair : (context.moduli.zip context.delta)[index]? = some (q, delta) :=
    List.getElem?_zip_eq_some.mpr ⟨present, beside⟩
  have words := getElem?_components context.dimension poly.residues
    (Context.Lawful.index_lt present)
  rw [addScaled, belongs.size, run_flatten_zipWith ?_ pair words]
  intro pair _ words member
  exact length_of_addScaledRun belongs many member pair.1 pair.2

include lawful

/-- Adding scaled values keeps a polynomial one of the context. -/
theorem belongs_addScaled : (addScaled context poly values).Belongs context .coefficient := by
  have deltas : context.delta.length = context.moduli.length := by
    rw [lawful.delta, Basis.decompose, List.length_map]
    rfl
  have even : (context.moduli.zip context.delta).length = context.primeCount := by
    rw [List.length_zip, deltas, Nat.min_self, Context.Lawful.length_moduli]
  refine ⟨belongs.size, belongs.domain, ?_, fun index q present word member => ?_⟩
  · rw [addScaled, belongs.size, length_flatten_zipWith (fun pair _ words member =>
      length_of_addScaledRun belongs many member pair.1 pair.2)
        (even.trans (length_components _ _ _).symm), even]
  · obtain ⟨delta, beside, _⟩ := lawful.delta_present present
    rw [run_addScaled belongs many present beside, addScaledRun,
      ← List.map_uncurry_zip_eq_zipWith] at member
    obtain ⟨pair, _, rfl⟩ := List.mem_map.mp member
    exact add_lt (lawful.prime (List.mem_of_getElem? present)).pos _ _

/-- The second phase adds the scaled value of each coefficient. -/
theorem classOf_addScaled {index position : Nat} {q : UInt64}
    (present : context.moduli[index]? = some q) (inside : position < context.dimension) :
    classOf q ((addScaled context poly values).residues.getD
        (index * context.dimension + position) 0) =
      classOf q (poly.residues.getD (index * context.dimension + position) 0) +
        (context.scaled (values.getD position 0).toNat : ZMod q.toNat) := by
  obtain ⟨delta, beside, residue⟩ := lawful.delta_present present
  have positive := (lawful.prime (List.mem_of_getElem? present)).pos
  have long := length_run belongs.full (Context.Lawful.index_lt present)
  have short : position < values.length := by
    rw [many]
    exact inside
  rw [← getD_run _ index inside, run_addScaled belongs many present beside, addScaledRun,
    getD_zipWith _ _ _ (by rw [long]; exact inside) short 0 0 0, classOf_add positive,
    lawful.classOf_scaleResidue positive residue, getD_run _ index inside]

end Scaled

/-! ## Encryption -/

/-- Whether every residue of a ciphertext is that of the product, the noise and the scaled value. -/
def Encrypts (key : SecretKey) (a : PublicPoly) (noise : List Int) (values : List UInt64)
    (ciphertext : Ciphertext) : Prop :=
  ∀ index q position, key.context.moduli[index]? = some q → position < ciphertext.count →
    classOf q (ciphertext.residues.getD (index * ciphertext.count + position) 0) =
      classOf q ((key.mulPublic a).residues.getD (index * key.context.dimension + position) 0) +
        ((noise.getD position 0 : Int) : ZMod q.toNat) +
        (key.context.scaled (values.getD position 0 % key.context.plaintextModulus).toNat :
          ZMod q.toNat)

/-- The padded values of a plaintext by position. -/
theorem getD_padded (context : Context) (values : List UInt64) {position : Nat}
    (inside : position < context.dimension) :
    (Plaintext.padded context values).getD position 0 =
      values.getD position 0 % context.plaintextModulus := by
  rw [Plaintext.padded]
  rcases Nat.lt_or_ge position values.length with given | behind
  · rw [List.getD_append _ _ _ _ (by rw [List.length_map]; exact given), getD_map _ _ given 0 0]
  · rw [List.getD_append_right _ _ _ _ (by rw [List.length_map]; exact behind), List.length_map,
      List.getD_replicate _ (by omega), List.getD_eq_default _ _ behind, UInt64.zero_mod]

theorem length_padded {context : Context} {values : List UInt64}
    (fits : values.length ≤ context.dimension) :
    (Plaintext.padded context values).length = context.dimension := by
  rw [Plaintext.padded, List.length_append, List.length_map, List.length_replicate]
  omega

theorem padded_reduced {context : Context} (lawful : context.Lawful) (values : List UInt64) :
    ∀ value ∈ Plaintext.padded context values,
      value.toNat < context.plaintextModulus.toNat := by
  intro value member
  rcases List.mem_append.mp member with given | zero
  · obtain ⟨origin, _, rfl⟩ := List.mem_map.mp given
    rw [UInt64.toNat_mod]
    exact Nat.mod_lt _ lawful.plaintext_pos
  · rw [List.eq_of_mem_replicate zero, UInt64.toNat_zero]
    exact lawful.plaintext_pos

section Finalize

variable {context : Context} (lawful : context.Lawful) {key : SecretKey}
  (keyBelongs : key.Belongs context) {a : PublicPoly}
  (publicBelongs : a.poly.Belongs context .transformed) {noise : List Int}
  (many : noise.length = context.dimension) {values : List UInt64}
  (fits : values.length ≤ context.dimension)
include keyBelongs

theorem checkFingerprint_self : key.context.checkFingerprint context.fingerprint = .ok () := by
  rw [keyBelongs.bound, Context.checkFingerprint, if_pos rfl]

/-- Finalizing a plaintext of the context on a partial ciphertext of the key. -/
theorem finalize_eq_ok (length : Nat) :
    key.finalize ⟨context, Plaintext.padded context values, length⟩ (key.preprocessWith a noise) =
      .ok (Ciphertext.ofPoly context
        (addScaled context (key.preprocessWith a noise).poly (Plaintext.padded context values))) := by
  have own : key.context.checkFingerprint (key.preprocessWith a noise).context.fingerprint =
      .ok () := by
    rw [preprocessWith, Context.checkFingerprint, if_pos rfl]
  rw [finalize, checkFingerprint_self keyBelongs, ok_bind, own, ok_bind, keyBelongs.bound]
  rfl

include lawful publicBelongs many fits

/-- What finalizing gives belongs to the context and encrypts the values. -/
theorem encrypts_finalize :
    (Ciphertext.ofPoly context (addScaled context (key.preprocessWith a noise).poly
      (Plaintext.padded context values))).Belongs context ∧
    Encrypts key a noise values (Ciphertext.ofPoly context
      (addScaled context (key.preprocessWith a noise).poly (Plaintext.padded context values))) := by
  have part := belongs_preprocessWith lawful keyBelongs publicBelongs many
  have whole := belongs_addScaled lawful part (length_padded fits)
  refine ⟨Ciphertext.belongs_ofPoly whole, ?_⟩
  intro index q position present inside
  rw [keyBelongs.bound] at present ⊢
  rw [Ciphertext.ofPoly, whole.size] at inside ⊢
  rw [classOf_addScaled lawful part (length_padded fits) present inside,
    classOf_preprocessWith lawful keyBelongs publicBelongs many present inside,
    getD_padded context values inside]

end Finalize

/-! ## Truncation -/

section Truncate

variable {context : Context} {ciphertext : Ciphertext} (belongs : ciphertext.Belongs context)
  {count : Nat} (fewer : count ≤ ciphertext.count)
include belongs fewer

/-- Truncation keeps what a ciphertext encrypts. -/
theorem encrypts_truncate {key : SecretKey} (bound : key.context = context) {a : PublicPoly}
    {noise : List Int} {values : List UInt64} (encrypts : Encrypts key a noise values ciphertext) :
    ∃ shorter, ciphertext.truncate count = .ok shorter ∧ shorter.Belongs context ∧
      shorter.count = count ∧ Encrypts key a noise values shorter := by
  obtain ⟨shorter, truncated, shorterBelongs, counted, kept⟩ := belongs.truncate_spec fewer
  refine ⟨shorter, truncated, shorterBelongs, counted, ?_⟩
  intro index q position present inside
  rw [counted] at inside ⊢
  have enough : index < context.primeCount := by
    rw [bound] at present
    exact Context.Lawful.index_lt present
  rw [kept index position enough inside]
  exact encrypts index q position present (Nat.lt_of_lt_of_le inside fewer)

end Truncate

section Encrypt

variable {context : Context} (lawful : context.Lawful) {key : SecretKey}
  (keyBelongs : key.Belongs context) {a : PublicPoly}
  (publicBelongs : a.poly.Belongs context .transformed) {noise : List Int}
  (many : noise.length = context.dimension) {values : List UInt64}
  (fits : values.length ≤ context.dimension)
include lawful keyBelongs publicBelongs many fits

/-- Both forms of encryption on a partial ciphertext succeed: the one of a plaintext with all
coefficients, the one of values with as many as there are values. -/
theorem encryption_spec :
    (∃ ciphertext, key.finalize ⟨context, Plaintext.padded context values, values.length⟩
        (key.preprocessWith a noise) = .ok ciphertext ∧
      ciphertext.Belongs context ∧ ciphertext.count = context.dimension ∧
      Encrypts key a noise values ciphertext) ∧
    ∃ ciphertext, key.encryptPreprocessed values (key.preprocessWith a noise) = .ok ciphertext ∧
      ciphertext.Belongs context ∧ ciphertext.count = values.length ∧
      Encrypts key a noise values ciphertext := by
  obtain ⟨wholeBelongs, encrypts⟩ := encrypts_finalize lawful keyBelongs publicBelongs many fits
  have finalized : key.finalize ⟨context, Plaintext.padded context values, values.length⟩
      (key.preprocessWith a noise) = .ok (Ciphertext.ofPoly context
        (addScaled context (key.preprocessWith a noise).poly (Plaintext.padded context values))) :=
    finalize_eq_ok keyBelongs values.length
  have wide : (Ciphertext.ofPoly context (addScaled context (key.preprocessWith a noise).poly
      (Plaintext.padded context values))).count = context.dimension :=
    (belongs_preprocessWith lawful keyBelongs publicBelongs many).size
  have made : Plaintext.ofValues key.context values =
      .ok ⟨context, Plaintext.padded context values, values.length⟩ := by
    rw [keyBelongs.bound, Plaintext.ofValues, if_neg (Nat.not_lt.mpr fits)]
  refine ⟨⟨_, finalized, wholeBelongs, wide, encrypts⟩, ?_⟩
  rw [encryptPreprocessed, made, ok_bind, finalized, ok_bind, keyBelongs.bound]
  by_cases fewer : values.length < context.dimension
  · rw [if_pos fewer]
    exact encrypts_truncate wholeBelongs (by rw [wide]; exact fits) keyBelongs.bound encrypts
  · rw [if_neg fewer]
    exact ⟨_, rfl, wholeBelongs, by rw [wide]; omega, encrypts⟩

end Encrypt

/-! ## Decryption -/

/-- The residues of `b - a · s` at a coefficient. -/
def phaseAt (key : SecretKey) (a : PublicPoly) (ciphertext : Ciphertext) (position : Nat) :
    List UInt64 :=
  key.context.moduli.zipIdx.map fun (q, index) =>
    Residue.sub (ciphertext.residues.getD (index * ciphertext.count + position) 0)
      ((key.mulPublic a).residues.getD (index * key.context.dimension + position) 0) q

theorem length_phaseAt (key : SecretKey) (a : PublicPoly) (ciphertext : Ciphertext)
    (position : Nat) : (key.phaseAt a ciphertext position).length = key.context.primeCount := by
  rw [phaseAt, List.length_map, List.length_zipIdx, Context.Lawful.length_moduli]

theorem getD_phaseAt {key : SecretKey} (a : PublicPoly) (ciphertext : Ciphertext) (position : Nat)
    {index : Nat} {q : UInt64} (present : key.context.moduli[index]? = some q) :
    (key.phaseAt a ciphertext position).getD index 0 =
      Residue.sub (ciphertext.residues.getD (index * ciphertext.count + position) 0)
        ((key.mulPublic a).residues.getD (index * key.context.dimension + position) 0) q := by
  rw [List.getD_eq_getElem?_getD, phaseAt, List.getElem?_map, List.getElem?_zipIdx, present,
    Option.map_some, Option.map_some, Option.getD_some, Nat.zero_add]

section Decrypt

variable {context : Context} (lawful : context.Lawful) {key : SecretKey}
  (keyBelongs : key.Belongs context) {a : PublicPoly}
  (publicBelongs : a.poly.Belongs context .transformed) {ciphertext : Ciphertext}
  (belongs : ciphertext.Belongs context)
include lawful keyBelongs publicBelongs belongs

/-- Decryption descales the residues of `b - a · s` coefficient by coefficient. -/
theorem phases_eq :
    key.phases a ciphertext = (List.range ciphertext.count).map (key.phaseAt a ciphertext) := by
  have product := belongs_mulPublic lawful keyBelongs publicBelongs
  let runs := components ciphertext.count context.primeCount ciphertext.residues
  let others := components context.dimension context.primeCount (key.mulPublic a).residues
  let differences := List.zipWith
    (fun q (pair : List UInt64 × List UInt64) => List.zipWith (Residue.sub · · q) pair.1 pair.2)
    context.moduli (runs.zip others)
  have long : ∀ row ∈ differences, ciphertext.count ≤ row.length := by
    intro row member
    refine Nat.le_of_eq (length_of_mem_zipWith (fun q _ pair inside => ?_) member).symm
    obtain ⟨left, right⟩ := List.of_mem_zip inside
    rw [List.length_zipWith, length_of_mem_components belongs.full left,
      length_of_mem_components product.full right]
    exact Nat.min_eq_left belongs.count
  have columns : key.phases a ciphertext =
      (List.range ciphertext.count).map fun position => differences.map (·.getD position 0) := by
    rw [phases, keyBelongs.bound]
    exact columns_eq_map ciphertext.count differences 0 long
  rw [columns]
  refine List.map_congr_left fun position member => List.ext_getElem? fun index => ?_
  have inside := List.mem_range.mp member
  have wide : position < context.dimension := Nat.lt_of_lt_of_le inside belongs.count
  rw [phaseAt, keyBelongs.bound, List.getElem?_map, List.getElem?_map, List.getElem?_zipIdx,
    List.getElem?_zipWith]
  cases present : context.moduli[index]? with
  | none => rfl
  | some q =>
    have enough := Context.Lawful.index_lt present
    have pair : (runs.zip others)[index]? = some (run ciphertext.count ciphertext.residues index,
        run context.dimension (key.mulPublic a).residues index) :=
      List.getElem?_zip_eq_some.mpr
        ⟨getElem?_components _ _ enough, getElem?_components _ _ enough⟩
    have leftLong := length_run belongs.full enough
    have rightLong := length_run product.full enough
    rw [pair, Option.map_some, Option.map_some, Option.map_some, Nat.zero_add,
      getD_zipWith _ _ _ (by rw [leftLong]; exact inside) (by rw [rightLong]; exact wide) 0 0 0,
      getD_run _ index inside, getD_run _ index wide]

/-- The residues that decryption descales have the classes of those of the ciphertext less those of
the product. -/
theorem classOf_phaseAt {index position : Nat} {q : UInt64}
    (present : context.moduli[index]? = some q) (inside : position < ciphertext.count) :
    classOf q ((key.phaseAt a ciphertext position).getD index 0) =
      classOf q (ciphertext.residues.getD (index * ciphertext.count + position) 0) -
        classOf q ((key.mulPublic a).residues.getD (index * context.dimension + position) 0) := by
  have product := belongs_mulPublic lawful keyBelongs publicBelongs
  have enough := Context.Lawful.index_lt present
  have wide : position < context.dimension := Nat.lt_of_lt_of_le inside belongs.count
  rw [getD_phaseAt a ciphertext position (by rw [keyBelongs.bound]; exact present),
    keyBelongs.bound]
  exact classOf_sub (belongs.reduced.getD_lt belongs.full present enough inside)
    (product.reduced.getD_lt product.full present enough wide)

/-- Decryption succeeds when the public polynomial and the ciphertext belong to the ring of the key,
and gives the descaled residues. -/
theorem decrypt_eq_ok (sameRing : a.context.fingerprint = context.fingerprint)
    (untransposed : a.transposed = false) :
    key.decrypt a ciphertext = .ok ((List.range ciphertext.count).map fun position =>
      context.descale (key.phaseAt a ciphertext position)) := by
  have accepted : key.checkPublic a = .ok () := by
    rw [checkPublic_eq (by rw [keyBelongs.bound, sameRing]), untransposed]
    rfl
  have own : key.context.checkFingerprint ciphertext.context.fingerprint = .ok () := by
    rw [belongs.bound]
    exact checkFingerprint_self keyBelongs
  rw [decrypt, accepted, ok_bind, own, ok_bind,
    phases_eq lawful keyBelongs publicBelongs belongs, List.map_map, keyBelongs.bound]
  rfl

/-- Decryption gives as many values as the ciphertext has coefficients, and the encrypted one
wherever the noise leaves room for it. -/
theorem decrypt_of_encrypts (sameContext : a.context = context) (untransposed : a.transposed = false)
    {noise : List Int} {values : List UInt64} (encrypts : Encrypts key a noise values ciphertext) :
    ∃ decrypted, key.decrypt a ciphertext = .ok decrypted ∧
      decrypted.length = ciphertext.count ∧
      ∀ position < ciphertext.count,
        (context.plaintextModulus.toNat : Int) * (2 * |noise.getD position 0| + 1) <
          context.basis.modulus →
        decrypted[position]? = some (values.getD position 0 % context.plaintextModulus) := by
  refine ⟨_, decrypt_eq_ok lawful keyBelongs publicBelongs belongs (by rw [sameContext])
    untransposed, by rw [List.length_map, List.length_range], fun position inside small => ?_⟩
  have full : (key.phaseAt a ciphertext position).length = context.primeCount := by
    rw [length_phaseAt, keyBelongs.bound]
  have below : (values.getD position 0 % context.plaintextModulus).toNat <
      context.plaintextModulus.toNat := by
    rw [UInt64.toNat_mod]
    exact Nat.mod_lt _ lawful.plaintext_pos
  have congruent : (context.basis.compose (key.phaseAt a ciphertext position) : Int) ≡
      noise.getD position 0 +
        context.scaled (values.getD position 0 % context.plaintextModulus).toNat
      [ZMOD context.basis.modulus] := by
    refine lawful.basis_sound.compose_modEq_of_classes full ?_
    intro index q present
    have encrypted := encrypts index q position (by rw [keyBelongs.bound]; exact present) inside
    rw [classOf_phaseAt lawful keyBelongs publicBelongs belongs present inside, encrypted,
      keyBelongs.bound]
    push_cast
    ring
  rw [List.getElem?_map, List.getElem?_range inside]
  exact congrArg some (UInt64.toNat_inj.mp (lawful.descale_of_noise below congruent small))

end Decrypt

/-! ## Both ways -/

/-- Whether decryption gives as many values as expected, and the expected one wherever the noise
leaves room for it. -/
def Recovers (key : SecretKey) (a : PublicPoly) (noise : List Int) (expected : List UInt64)
    (ciphertext : Ciphertext) : Prop :=
  ∃ decrypted, key.decrypt a ciphertext = .ok decrypted ∧ decrypted.length = expected.length ∧
    ∀ position < expected.length,
      (key.context.plaintextModulus.toNat : Int) * (2 * |noise.getD position 0| + 1) <
        key.context.basis.modulus →
      decrypted[position]? = expected[position]?

section Recovers

variable {context : Context} (lawful : context.Lawful) {key : SecretKey}
  (keyBelongs : key.Belongs context) {a : PublicPoly}
  (publicBelongs : a.poly.Belongs context .transformed) (sameContext : a.context = context)
  (untransposed : a.transposed = false) {ciphertext : Ciphertext}
  (belongs : ciphertext.Belongs context) {noise : List Int} {values : List UInt64}
  (encrypts : Encrypts key a noise values ciphertext)
include lawful keyBelongs publicBelongs sameContext untransposed belongs encrypts

/-- Decryption recovers what agrees with the encrypted values modulo the plaintext modulus. -/
theorem recovers_of_encrypts {expected : List UInt64} (counted : ciphertext.count = expected.length)
    (same : ∀ position < expected.length,
      expected[position]? = some (values.getD position 0 % context.plaintextModulus)) :
    Recovers key a noise expected ciphertext := by
  obtain ⟨decrypted, succeeds, length, right⟩ :=
    decrypt_of_encrypts lawful keyBelongs publicBelongs belongs sameContext untransposed encrypts
  refine ⟨decrypted, succeeds, length.trans counted, ?_⟩
  intro position inside small
  rw [keyBelongs.bound] at small
  rw [same position inside]
  exact right position (by rw [counted]; exact inside) small

end Recovers

/-- Decryption undoes encryption.  The first phase draws as many noise values as the ring has
coefficients; on what it leaves with any such noise, every list of values that fits the ring is
encrypted, cut down to its length or padded with zeros, and every value whose noise leaves room for
it is recovered modulo the plaintext modulus. -/
theorem decrypt_preprocessed {parameters : Parameters} {context : Context}
    (built : Context.ofParameters parameters = .ok context) {key : SecretKey}
    (own : key.Reachable context) {a : PublicPoly} (published : a.Reachable context)
    (untransposed : a.transposed = false) :
    (∃ draw, key.preprocess a = .ok draw ∧ ∀ stream,
      ∃ noise, noise = ((context.gaussian.samples context.dimension).run stream).1 ∧
        noise.length = context.dimension ∧ (draw.run stream).1 = key.preprocessWith a noise) ∧
    ∀ noise, noise.length = context.dimension → ∀ values, values.length ≤ context.dimension →
      (∃ ciphertext,
        key.encryptPreprocessed values (key.preprocessWith a noise) = .ok ciphertext ∧
        Recovers key a noise (values.map (· % context.plaintextModulus)) ciphertext) ∧
      ∃ plaintext ciphertext, Plaintext.ofValues context values = .ok plaintext ∧
        key.finalize plaintext (key.preprocessWith a noise) = .ok ciphertext ∧
        Recovers key a noise
          (values.map (· % context.plaintextModulus) ++
            List.replicate (context.dimension - values.length) 0) ciphertext := by
  have lawful := Context.lawful_of_ofParameters built
  have keyBelongs := own.belongs lawful
  obtain ⟨sameContext, publicBelongs⟩ := published.belongs lawful
  constructor
  · have sameRing : a.context.fingerprint = context.fingerprint := by rw [sameContext]
    obtain ⟨draw, accepted, drawn⟩ := preprocess_spec lawful keyBelongs sameRing untransposed
    refine ⟨draw, accepted, ?_⟩
    intro stream
    obtain ⟨noise, rest, sampled, many, _, given⟩ := drawn stream
    exact ⟨noise, by rw [sampled], many, by rw [given]⟩
  · intro noise many values fits
    obtain ⟨⟨whole, finalized, wholeBelongs, wide, wholeEncrypts⟩,
      cut, encrypted, cutBelongs, counted, cutEncrypts⟩ :=
        encryption_spec lawful keyBelongs publicBelongs many fits
    refine ⟨⟨cut, encrypted, ?_⟩, _, whole, if_neg (Nat.not_lt.mpr fits), finalized, ?_⟩
    · refine recovers_of_encrypts lawful keyBelongs publicBelongs sameContext untransposed cutBelongs
        cutEncrypts (by rw [counted, List.length_map]) fun position inside => ?_
      rw [List.length_map] at inside
      rw [List.getElem?_map, List.getElem?_eq_getElem inside, Option.map_some,
        List.getD_eq_getElem _ _ inside]
    · have padded := length_padded fits
      refine recovers_of_encrypts lawful keyBelongs publicBelongs sameContext untransposed
        wholeBelongs wholeEncrypts (wide.trans padded.symm) fun position inside => ?_
      change position < (Plaintext.padded context values).length at inside
      rw [← getD_padded context values (by rw [← padded]; exact inside),
        List.getD_eq_getElem _ _ inside]
      exact List.getElem?_eq_getElem inside

/-- A generated key of the preset of 32 bits recovers the residue of a single value. -/
theorem decrypt_preset : ∃ context key a,
    Context.ofParameters (Parameters.preset .bits32) = .ok context ∧
    Reachable context key ∧ a.Reachable context ∧ a.transposed = false ∧
    ∃ ciphertext,
      key.encryptPreprocessed [300] (key.preprocessWith a (List.replicate 2048 0)) =
        .ok ciphertext ∧
      key.decrypt a ciphertext = .ok [44] := by
  obtain ⟨context, built⟩ := Context.exists_preset .bits32
  obtain ⟨dimension, plaintext, _, modulus⟩ := Context.preset_spec built
  have own : Reachable context ((generate context).run ⟨Vector.replicate 8 0, 0, []⟩).1 :=
    .generated _
  have published : PublicPoly.Reachable context (PublicPoly.derive context (Vector.replicate 8 0)) :=
    .derive _
  have bound := (own.belongs (Context.lawful_of_ofParameters built)).bound
  obtain ⟨⟨ciphertext, encrypted, decrypted, succeeds, single, right⟩, _⟩ :=
    (decrypt_preprocessed built own published rfl).2 (List.replicate 2048 0)
      (by rw [dimension, List.length_replicate]) [300] (by rw [dimension]; decide)
  have value := right 0 (by rw [List.length_map]; decide)
    (by rw [bound, plaintext, modulus]; decide)
  have same : decrypted = [44] := by
    obtain ⟨first, rfl⟩ := List.length_eq_one_iff.mp single
    rw [plaintext] at value
    exact congrArg (fun item => [item]) (Option.some.inj value)
  exact ⟨context, _, _, built, own, published, rfl, ciphertext, encrypted, same ▸ succeeds⟩

end SecretKey

end RingLwe
