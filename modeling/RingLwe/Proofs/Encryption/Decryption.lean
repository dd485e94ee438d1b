import RingLwe.Proofs.Encryption.Equation
import RingLwe.Proofs.Modular.Ranges

/-!
# What decryption computes

A number is the phase of a coefficient of a ciphertext when it is below the
product `q` of the primes and congruent to `b - a · s` modulo each of them
(`SecretKey.IsPhase`).  Every coefficient has exactly one phase, the number
composed of the residues that decryption descales (`SecretKey.isPhase_iff`).

So decryption is defined on every ciphertext, whoever made it: each value is
`p · x / q` for the phase `x`, rounded, modulo `p`.  It reads no residue beyond
its two buffers, though their runs have different lengths, and no subtraction
takes more than it has (`SecretKey.phases?_eq`).  This holds of all ciphertexts
that a session can hold (`Session.reached_decrypts`).
-/

set_option autoImplicit false

namespace RingLwe

open Residue

/-! ## Phases -/

namespace SecretKey

/-- The residues of `b - a · s` for each coefficient of a ciphertext, each one read at its position
in the two buffers and subtracted with its ranges. -/
def phases? (key : SecretKey) (a : PublicPoly) (ciphertext : Ciphertext) :
    Option (List (List UInt64)) :=
  (List.range ciphertext.count).mapM fun position =>
    key.context.moduli.zipIdx.mapM fun (q, index) => do
      let left ← ciphertext.residues[index * ciphertext.count + position]?
      let right ← (key.mulPublic a).residues[index * key.context.dimension + position]?
      difference? left right q

/-- Whether a number is a coefficient of `b - a · s` modulo the product of the primes. -/
def IsPhase (key : SecretKey) (a : PublicPoly) (ciphertext : Ciphertext) (position number : Nat) :
    Prop :=
  number < key.context.basis.modulus ∧
    ∀ index q, key.context.moduli[index]? = some q →
      (number : Int) ≡
        (ciphertext.residues.getD (index * ciphertext.count + position) 0).toNat -
          (key.integerProduct a).getD position 0 [ZMOD q.toNat]

section Phases

variable {context : Context} (lawful : context.Lawful) {key : SecretKey}
  (keyBelongs : key.Belongs context) {a : PublicPoly}
  (publicBelongs : a.poly.Belongs context .transformed) {ciphertext : Ciphertext}
  (belongs : ciphertext.Belongs context)
include lawful keyBelongs publicBelongs belongs

/-- No residue is missing and no subtraction underflows. -/
theorem phases?_eq : key.phases? a ciphertext = some (key.phases a ciphertext) := by
  have product := belongs_mulPublic lawful keyBelongs publicBelongs
  rw [phases_eq lawful keyBelongs publicBelongs belongs]
  refine mapM_eq_some_map fun position member => mapM_eq_some_map ?_
  rintro ⟨q, index⟩ numbered
  rw [keyBelongs.bound] at numbered ⊢
  have present : context.moduli[index]? = some q := List.mk_mem_zipIdx_iff_getElem?.mp numbered
  have enough := Context.Lawful.index_lt present
  have inside := List.mem_range.mp member
  have wide : position < context.dimension := Nat.lt_of_lt_of_le inside belongs.count
  have left := getElem?_eq_some_getD belongs.full enough inside (0 : UInt64)
  have right := getElem?_eq_some_getD product.full enough wide (0 : UInt64)
  have reduced := product.reduced.getD_lt product.full present enough wide
  dsimp only
  rw [left, Option.bind_eq_bind, Option.bind_some, right, Option.bind_some,
    difference?_eq reduced]

/-- The only phase of a coefficient is the number composed of the residues that are descaled. -/
theorem isPhase_iff (coefficients : a.coefficients.Belongs context .coefficient)
    (made : a.poly = a.coefficients.toTransformed context.transform) {position : Nat}
    (inside : position < ciphertext.count) (number : Nat) :
    key.IsPhase a ciphertext position number ↔
      number = context.basis.compose (key.phaseAt a ciphertext position) := by
  have full : (key.phaseAt a ciphertext position).length = context.basis.size := by
    rw [length_phaseAt, keyBelongs.bound]
    rfl
  have wide : position < context.dimension := Nat.lt_of_lt_of_le inside belongs.count
  have residues : ∀ index q, context.moduli[index]? = some q →
      classOf q ((key.phaseAt a ciphertext position).getD index 0) =
        (((ciphertext.residues.getD (index * ciphertext.count + position) 0).toNat -
          (key.integerProduct a).getD position 0 : Int) : ZMod q.toNat) := by
    intro index q present
    rw [classOf_phaseAt lawful keyBelongs publicBelongs belongs present inside,
      classOf_mulPublic_integers lawful keyBelongs coefficients made present wide, integerProduct,
      keyBelongs.bound, Negacyclic.getD_product _ _ wide]
    push_cast
    rfl
  have below := lawful.basis_sound.compose_lt (key.phaseAt a ciphertext position)
  rw [IsPhase, keyBelongs.bound]
  constructor
  · rintro ⟨small, congruent⟩
    have same : (context.basis.compose (key.phaseAt a ciphertext position) : Int) ≡ number
        [ZMOD context.basis.modulus] :=
      lawful.basis_sound.compose_modEq_of_classes full fun index q present =>
        (residues index q present).trans
          ((ZMod.intCast_eq_intCast_iff _ _ _).mpr (congruent index q present)).symm
    exact ((Int.natCast_modEq_iff.mp same).eq_of_lt_of_lt below small).symm
  · rintro rfl
    refine ⟨below, fun index q present => ?_⟩
    have composed := lawful.basis_sound.compose_modEq_getD full present
    refine (ZMod.intCast_eq_intCast_iff _ _ _).mp ?_
    rw [← residues index q present, Int.cast_natCast]
    exact (ZMod.natCast_eq_natCast_iff _ _ _).mpr composed

/-- Decryption gives a value for each coefficient: `p · x / q` for its only phase `x`, rounded,
modulo `p`. -/
theorem decrypt_spec (publicSame : a.context.fingerprint = context.fingerprint)
    (untransposed : a.transposed = false)
    (coefficients : a.coefficients.Belongs context .coefficient)
    (made : a.poly = a.coefficients.toTransformed context.transform) :
    ∃ values, key.decrypt a ciphertext = .ok values ∧ values.length = ciphertext.count ∧
      (∀ value ∈ values, value < context.plaintextModulus) ∧
      ∀ position < ciphertext.count, (∃! x, key.IsPhase a ciphertext position x) ∧
        ∀ x, key.IsPhase a ciphertext position x →
          (values.map UInt64.toNat)[position]? =
            some ((context.plaintextModulus.toNat * x + context.basis.modulus / 2) /
              context.basis.modulus % context.plaintextModulus.toNat) := by
  refine ⟨_, decrypt_eq_ok lawful keyBelongs publicBelongs belongs publicSame untransposed,
    by rw [List.length_map, List.length_range], ?_, fun position inside => ?_⟩
  · intro value decoded
    obtain ⟨position, _, rfl⟩ := List.mem_map.mp decoded
    rw [UInt64.lt_iff_toNat_lt, lawful.toNat_descale]
    exact Nat.mod_lt _ lawful.plaintext_pos
  · have phase := isPhase_iff lawful keyBelongs publicBelongs belongs coefficients made inside
    refine ⟨⟨_, (phase _).mpr rfl, fun other => (phase other).mp⟩, fun x isPhase => ?_⟩
    rw [(phase x).mp isPhase, List.map_map, List.getElem?_map, List.getElem?_range inside,
      Option.map_some, Function.comp_apply, lawful.toNat_descale, Nat.mul_comm]

end Phases

end SecretKey

/-! ## Sessions -/

/-- A ciphertext under another context of the same ring. -/
theorem Ciphertext.Belongs.transfer {context other : Context}
    (same : Context.SameRing context other) {ciphertext : Ciphertext}
    (belongs : ciphertext.Belongs context) :
    ({ ciphertext with context := other } : Ciphertext).Belongs other := by
  obtain ⟨_, count, full, reduced⟩ := belongs
  rw [same.dimension] at count
  rw [same.primeCount] at full
  rw [same.moduli] at reduced
  exact ⟨rfl, count, full, reduced⟩

/-- The coefficients of a public polynomial under another context of the same ring. -/
theorem PublicPoly.coefficients_of_sameRing {context : Context} {a : PublicPoly}
    (same : Context.SameRing a.context context) (own : a.context.Lawful) (lawful : context.Lawful)
    (belongs : a.poly.Belongs a.context .transformed) :
    a.poly.Belongs context .transformed ∧ a.coefficients.Belongs context .coefficient ∧
      a.poly = a.coefficients.toTransformed context.transform := by
  have transferred := belongs.transfer same
  rw [coefficients, same.transform own lawful]
  exact ⟨transferred, ResiduePoly.belongs_toCoefficient lawful transferred,
    (ResiduePoly.toTransformed_toCoefficient lawful transferred).symm⟩

namespace Session

/-- Decryption computes its definition on every ciphertext that a session can hold, with every key
and every public polynomial of its ring that has not been transposed.  The product `a · s` is that
of `Z_q[X] / (X^n + 1)`.  No residue is missing and no subtraction underflows.  There are as many
values as coefficients, each below `p`, and each coefficient has exactly one phase `x`, for which
its value is `p · x / q`, rounded, modulo `p`. -/
theorem reached_decrypts {contexts : List Context}
    (built : ∀ context ∈ contexts, ∃ parameters, Context.ofParameters parameters = .ok context)
    (distinguished : Context.Distinguished contexts) (operations : List Operation)
    {key : SecretKey} (keyMember : key ∈ (reached contexts operations).keys)
    {a : PublicPoly} (publicMember : a ∈ (reached contexts operations).publics)
    (publicSame : a.context.fingerprint = key.context.fingerprint)
    (untransposed : a.transposed = false) {ciphertext : Ciphertext}
    (member : ciphertext ∈ (reached contexts operations).ciphertexts)
    (same : ciphertext.context.fingerprint = key.context.fingerprint) :
    Negacyclic.element key.context.basis.modulus key.context.dimension (key.integerProduct a) =
      Negacyclic.element key.context.basis.modulus key.context.dimension
          (a.coefficients.integers key.context) *
        Negacyclic.element key.context.basis.modulus key.context.dimension
          (key.coefficients.integers key.context) ∧
    ciphertext.count ≤ key.context.dimension ∧
    key.phases? a ciphertext = some (key.phases a ciphertext) ∧
    ∃ values, key.decrypt a ciphertext = .ok values ∧ values.length = ciphertext.count ∧
      (∀ value ∈ values, value < key.context.plaintextModulus) ∧
      ∀ position < ciphertext.count, (∃! x, key.IsPhase a ciphertext position x) ∧
        ∀ x, key.IsPhase a ciphertext position x →
          (values.map UInt64.toNat)[position]? =
            some ((key.context.plaintextModulus.toNat * x + key.context.basis.modulus / 2) /
              key.context.basis.modulus % key.context.plaintextModulus.toNat) := by
  have lawful := lawful_of_built built
  have wellFormed := wellFormed_reached lawful distinguished operations
  obtain ⟨own, keySpec⟩ := wellFormed.keys key keyMember
  obtain ⟨publicOwn, publicBelongs⟩ := wellFormed.publics a publicMember
  obtain ⟨cipherOwn, cipherBelongs⟩ := wellFormed.ciphertexts ciphertext member
  have keyBelongs := keySpec.belongs
  have keyLawful := lawful _ own
  obtain ⟨image, coefficients, made⟩ := PublicPoly.coefficients_of_sameRing
    (distinguished _ publicOwn _ own publicSame) (lawful _ publicOwn) keyLawful publicBelongs
  have moved := cipherBelongs.transfer (distinguished _ cipherOwn _ own same)
  have decrypted : key.decrypt a { ciphertext with context := key.context } =
      key.decrypt a ciphertext := by
    rw [SecretKey.decrypt, SecretKey.decrypt, same]
    rfl
  have exact := SecretKey.phases?_eq keyLawful keyBelongs image moved
  have spec := SecretKey.decrypt_spec keyLawful keyBelongs image moved publicSame untransposed
    coefficients made
  rw [decrypted] at spec
  exact ⟨Negacyclic.element_product _ (ResiduePoly.length_integers _ _)
    (ResiduePoly.length_integers _ _), moved.count, exact, spec⟩

/-- A session that holds a key, a public polynomial and the ciphertext that was loaded from data. -/
theorem reached_loaded {context : Context} {ciphertext : Ciphertext} {bytes : List UInt8}
    (loaded : Ciphertext.loadData context bytes = .ok ciphertext) (stream : Stream) (seed : Seed) :
    reached [context] [.generateKey 0 stream, .derivePublic 0 seed, .loadData 0 bytes] =
      ⟨[((SecretKey.generate context).run stream).1], [PublicPoly.derive context seed], [], [],
        [ciphertext]⟩ := by
  have finished : step [context]
      ⟨[((SecretKey.generate context).run stream).1], [PublicPoly.derive context seed], [], [], []⟩
      (.loadData 0 bytes) =
      .ok ⟨[((SecretKey.generate context).run stream).1], [PublicPoly.derive context seed], [], [],
        [ciphertext]⟩ := by
    change attempt (Ciphertext.loadData context bytes) >>= _ = _
    rw [loaded]
    rfl
  exact perform_eq_of_step finished

/-- In the preset of 32 bits, two arbitrary residues that were loaded from data are decrypted. -/
theorem reached_decrypts_preset : ∃ context,
    Context.ofParameters (Parameters.preset .bits32) = .ok context ∧
      ∃ ciphertext key a, ciphertext.residues = [0, 8589905920] ∧
        reached [context] [.generateKey 0 (Stream.ofSeed 1), .derivePublic 0 (Vector.replicate 8 0),
          .loadData 0 ciphertext.dataBytes] = ⟨[key], [a], [], [], [ciphertext]⟩ ∧
        key.phases? a ciphertext = some (key.phases a ciphertext) ∧
        ∃ values, key.decrypt a ciphertext = .ok values ∧ values.length = 2 ∧
          ∀ value ∈ values, value < 128 := by
  obtain ⟨context, built⟩ := Context.exists_preset .bits32
  obtain ⟨dimension, plaintext, primes, _⟩ := Context.preset_spec built
  have lawful := Context.lawful_of_ofParameters built
  let ciphertext : Ciphertext := ⟨context, 2, [0, 8589905920]⟩
  have belongs : ciphertext.Belongs context := by
    have few : 2 ≤ context.dimension := by
      rw [dimension]
      decide
    refine ⟨rfl, few, by rw [primes]; rfl, ?_⟩
    rw [Context.moduli_preset built]
    intro index q present
    rw [List.getElem?_singleton, Option.ite_none_right_eq_some] at present
    obtain ⟨rfl, same⟩ := present
    rw [← Option.some.inj same]
    change ∀ word ∈ run 2 [0, 8589905920] 0, word < 8589905921
    exact List.forall_mem_cons.mpr ⟨by decide, List.forall_mem_singleton.mpr (by decide)⟩
  have session := reached_loaded
    (Ciphertext.loadData_dataBytes belongs (Context.SameRing.refl _) lawful) (Stream.ofSeed 1)
    (Vector.replicate 8 0)
  have own : ((SecretKey.generate context).run (Stream.ofSeed 1)).1.context = context :=
    ((SecretKey.Reachable.generated _).belongs lawful).bound
  generalize ((SecretKey.generate context).run (Stream.ofSeed 1)).1 = key at session own
  obtain ⟨_, _, exact, values, decrypted, length, below, _⟩ := reached_decrypts
    (List.forall_mem_singleton.mpr ⟨_, built⟩) (Context.distinguished_singleton context) _
    (by rw [session]; exact List.mem_singleton_self key)
    (by rw [session]; exact List.mem_singleton_self _) (by rw [own]; rfl) rfl
    (by rw [session]; exact List.mem_singleton_self ciphertext) (by rw [own])
  rw [own, plaintext] at below
  exact ⟨context, built, ciphertext, key, _, rfl, session, exact, values, decrypted, length, below⟩

end Session

end RingLwe
